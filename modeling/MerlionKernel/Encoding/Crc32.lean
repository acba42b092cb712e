import Mathlib.Logic.Function.Iterate
import MerlionKernel.Rust.Bytes

/-!
# CRC-32

`encoding.rs` computes the CRC-32 of ISO 3309 a byte at a time, with a table of 256 words. The
checksum itself is defined bit by bit: the register is shifted, and the polynomial is added whenever
the bit that leaves it differs from the bit that is fed in.

Both are instances of one identity. Eight rounds of the table's loop, started on the sum of a
register and a word, feed the low bits of the word into the register and shift the word out.
-/

namespace MerlionKernel.Encoding

open Rust

/-- The polynomial `0xEDB8_8320`, in reflected order. -/
def polynomial : BitVec 32 := 0xEDB88320#32

/-! ### The table -/

/-- The body of the inner loop of `CRC32_TABLE`. -/
def tableRound (crc : BitVec 32) : BitVec 32 :=
  if crc &&& 1#32 ≠ 0#32 then (crc >>> 1) ^^^ polynomial else crc >>> 1

/-- `CRC32_TABLE`. -/
def crc32Table : List (BitVec 32) :=
  (List.range 256).map fun i => tableRound^[8] (BitVec.ofNat 32 i)

/-- A byte as a word. -/
def word (b : UInt8) : BitVec 32 := b.toBitVec.setWidth 32

/-- The body of the loop of `crc32`. -/
def crcByte (crc : BitVec 32) (byte : UInt8) : Exec (BitVec 32) := do
  let i := ((crc ^^^ word byte) &&& 0xFF#32).toNat
  return (crc >>> 8) ^^^ (← index crc32Table i)

/-- The loop of `crc32`. -/
def update (crc : BitVec 32) (data : Bytes) : Exec (BitVec 32) := data.foldlM crcByte crc

/-- `crc32`. -/
def crc32 (data : Bytes) : Exec (BitVec 32) := do
  return (← update 0xFFFFFFFF#32 data) ^^^ 0xFFFFFFFF#32

/-! ### Bit by bit -/

/-- Feed one bit into the register. -/
def feedBit (crc : BitVec 32) (bit : Bool) : BitVec 32 :=
  if crc.getLsbD 0 ≠ bit then (crc >>> 1) ^^^ polynomial else crc >>> 1

/-- The lowest bits of a word, from the lowest on. -/
def lowBits (n : Nat) (y : BitVec 32) : List Bool := (List.range n).map y.getLsbD

/-- Feed the bits of the bytes, each from its lowest on. -/
def feed (crc : BitVec 32) (data : Bytes) : BitVec 32 :=
  (data.flatMap fun b => lowBits 8 (word b)).foldl feedBit crc

/-- The checksum, bit by bit. -/
def bitwiseCrc32 (data : Bytes) : BitVec 32 := feed 0xFFFFFFFF#32 data ^^^ 0xFFFFFFFF#32

/-! ### One identity -/

theorem and_one_ne_zero_iff (x : BitVec 32) : x &&& 1#32 ≠ 0#32 ↔ x.getLsbD 0 = true := by
  rw [BitVec.and_one_eq_setWidth_ofBool_getLsbD]
  cases x.getLsbD 0 <;> decide

/-- One round on a sum feeds the lowest bit of the second word into the first. -/
theorem tableRound_xor (crc y : BitVec 32) :
    tableRound (crc ^^^ y) = feedBit crc (y.getLsbD 0) ^^^ (y >>> 1) := by
  unfold tableRound feedBit
  simp only [and_one_ne_zero_iff, BitVec.getLsbD_xor, BitVec.ushiftRight_xor_distrib]
  cases crc.getLsbD 0 <;> cases y.getLsbD 0 <;> simp <;> ac_rfl

theorem lowBits_succ (n : Nat) (y : BitVec 32) :
    lowBits (n + 1) y = lowBits n y ++ [y.getLsbD n] := by
  rw [lowBits, List.range_succ, List.map_append]
  rfl

theorem iterate_tableRound_xor (n : Nat) (crc y : BitVec 32) :
    tableRound^[n] (crc ^^^ y) = (lowBits n y).foldl feedBit crc ^^^ (y >>> n) := by
  induction n with
  | zero => simp [lowBits]
  | succ n ih =>
    have hbit : (y >>> n).getLsbD 0 = y.getLsbD n := by simp
    rw [Function.iterate_succ_apply', ih, tableRound_xor, hbit, ← BitVec.shiftRight_add,
      lowBits_succ, List.foldl_append]
    rfl

theorem iterate_tableRound (n : Nat) (y : BitVec 32) :
    tableRound^[n] y = (lowBits n y).foldl feedBit 0#32 ^^^ (y >>> n) := by
  have h := iterate_tableRound_xor n 0#32 y
  rwa [BitVec.zero_xor] at h

theorem word_shift (b : UInt8) : word b >>> 8 = 0#32 := by
  apply BitVec.eq_of_toNat_eq
  have hlt := b.toNat_lt
  rw [BitVec.toNat_ushiftRight, word, BitVec.toNat_setWidth, Nat.shiftRight_eq_div_pow]
  simp
  omega

theorem lowBits_and (x : BitVec 32) : lowBits 8 (x &&& 0xFF#32) = lowBits 8 x := by
  refine List.map_congr_left fun i hi => ?_
  rw [BitVec.getLsbD_and]
  have hbit : ∀ i < 8, (0xFF#32).getLsbD i = true := by decide
  rw [hbit i (List.mem_range.mp hi), Bool.and_true]

theorem and_shift (x : BitVec 32) : (x &&& 0xFF#32) >>> 8 = 0#32 := by
  rw [BitVec.ushiftRight_and_distrib]
  have hmask : (0xFF#32) >>> 8 = 0#32 := by decide
  rw [hmask, BitVec.and_zero]

/-- The table's word for a byte feeds its bits into an empty register. -/
theorem index_crc32Table (x : BitVec 32) :
    index crc32Table (x &&& 0xFF#32).toNat = .ok ((lowBits 8 x).foldl feedBit 0#32) := by
  have hlt : (x &&& 0xFF#32).toNat < 256 := by
    rw [BitVec.toNat_and]
    exact Nat.lt_succ_of_le Nat.and_le_right
  refine index_eq_ok_iff.mpr ?_
  rw [crc32Table, List.getElem?_map, List.getElem?_range hlt, Option.map_some,
    BitVec.ofNat_toNat, BitVec.setWidth_eq, iterate_tableRound, and_shift, BitVec.xor_zero,
    lowBits_and]

/-- A step of the loop feeds the bits of the byte. -/
theorem crcByte_eq (crc : BitVec 32) (byte : UInt8) :
    crcByte crc byte = .ok ((lowBits 8 (word byte)).foldl feedBit crc) := by
  have htable : tableRound^[8] (crc ^^^ word byte) =
      (lowBits 8 (crc ^^^ word byte)).foldl feedBit 0#32 ^^^ (crc >>> 8) := by
    rw [iterate_tableRound, BitVec.ushiftRight_xor_distrib, word_shift, BitVec.xor_zero]
  rw [iterate_tableRound_xor, word_shift, BitVec.xor_zero] at htable
  rw [crcByte, index_crc32Table, ok_bind, htable, pure_eq_ok, BitVec.xor_comm (crc >>> 8)]

theorem update_eq (crc : BitVec 32) (data : Bytes) : update crc data = .ok (feed crc data) := by
  induction data generalizing crc with
  | nil => rfl
  | cons b data ih =>
    rw [update, List.foldlM_cons, crcByte_eq, ok_bind, feed, List.flatMap_cons, List.foldl_append]
    exact ih _

/-- The checksum by the table is the one bit by bit, and the register is all that a part of the
data leaves for what follows it. -/
theorem crc32_eq (data : Bytes) :
    crc32 data = .ok (bitwiseCrc32 data) ∧
      ∀ front back, ∃ crc, update 0xFFFFFFFF#32 front = .ok crc ∧
        crc32 (front ++ back) = (do return (← update crc back) ^^^ 0xFFFFFFFF#32) := by
  constructor
  · rw [crc32, update_eq]
    rfl
  · intro front back
    refine ⟨_, update_eq _ front, ?_⟩
    rw [crc32, update, List.foldlM_append]
    have hfront : front.foldlM crcByte 0xFFFFFFFF#32 = .ok (feed 0xFFFFFFFF#32 front) :=
      update_eq _ front
    rw [hfront]
    rfl

/-! ### Errors -/

/-- The bit that is shifted out comes back as the highest one. -/
theorem tableRound_injective : Function.Injective tableRound := by
  intro x y h
  have hround : ∀ z i, (tableRound z).getLsbD i =
      (z.getLsbD (1 + i) ^^ (z.getLsbD 0 && polynomial.getLsbD i)) := by
    intro z i
    unfold tableRound
    simp only [and_one_ne_zero_iff]
    cases z.getLsbD 0 <;> simp
  have hbits i := congrArg (BitVec.getLsbD · i) h
  simp only [hround] at hbits
  -- The highest bit of the polynomial is set.
  have hlow : x.getLsbD 0 = y.getLsbD 0 := by simpa [polynomial] using hbits 31
  refine BitVec.eq_of_getLsbD_eq fun i _ => ?_
  cases i with
  | zero => exact hlow
  | succ i =>
    have hnext := hbits i
    rwa [hlow, Bool.xor_left_inj, Nat.add_comm] at hnext

theorem feed_cons (crc : BitVec 32) (b : UInt8) (data : Bytes) :
    feed crc (b :: data) = feed (tableRound^[8] (crc ^^^ word b)) data := by
  rw [iterate_tableRound_xor, word_shift, BitVec.xor_zero, feed, List.flatMap_cons,
    List.foldl_append, feed]

theorem feed_inj {crc crc' : BitVec 32} (data : Bytes) :
    feed crc data = feed crc' data ↔ crc = crc' := by
  induction data generalizing crc crc' with
  | nil => rfl
  | cons b data ih =>
    rw [feed_cons, feed_cons, ih, (tableRound_injective.iterate 8).eq_iff, BitVec.xor_left_inj]

/-- A message that is changed in one byte has another checksum. -/
theorem crc32_byte_inj (front back : Bytes) (b b' : UInt8) :
    crc32 (front ++ b :: back) = crc32 (front ++ b' :: back) ↔ b = b' := by
  have hfeed : ∀ b, crc32 (front ++ b :: back) =
      .ok (feed (tableRound^[8] (feed 0xFFFFFFFF#32 front ^^^ word b)) back ^^^ 0xFFFFFFFF#32) := by
    intro b
    rw [crc32, update_eq, ok_bind, feed, List.flatMap_append, List.foldl_append, ← feed, ← feed,
      feed_cons, pure_eq_ok]
  rw [hfeed, hfeed, Except.ok.injEq, BitVec.xor_left_inj, feed_inj,
    (tableRound_injective.iterate 8).eq_iff, BitVec.xor_right_inj]
  refine ⟨fun h => ?_, fun h => h ▸ rfl⟩
  have hbyte := congrArg (BitVec.setWidth 8) h
  exact UInt8.toBitVec_inj.mp (by simpa [word] using hbyte)

end MerlionKernel.Encoding
