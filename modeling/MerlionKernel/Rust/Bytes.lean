import Mathlib.Data.List.GetD
import Mathlib.Tactic.Ring
import MerlionKernel.Rust.Exec

/-!
# Bytes and little-endian integers

Machine integers are stored in byte buffers least significant byte first. `toLe`
writes a natural number in a given number of bytes, dropping what does not fit, and
`fromLe` reads it back; a number survives the trip exactly when it fits.

Byte buffers are compared position by position through `byteAt`, so that a write is
described by the positions it changes.
-/

namespace MerlionKernel.Rust

/-- The bytes of a file, a buffer or a message. -/
abbrev Bytes := List UInt8

/-- `words[i] = word` in an array of known length. -/
def setAt {α : Type} {n : Nat} (words : Vector α n) (i : Fin n) (word : α) : Vector α n :=
  words.set i word

/-- Indices into arrays of sixteen words are written as numerals. -/
instance neZeroSixteen : @NeZero Nat Zero.ofOfNat0 16 := ⟨Nat.succ_ne_zero 15⟩

/-- A `Vec<u8>` or a `&[u8]`: never longer than `isize::MAX`. -/
abbrev Buffer := { bytes : Bytes // bytes.length < 9223372036854775808 }

/-- The first `width` bytes of `n`, least significant first. -/
def toLe : Nat → Nat → Bytes
  | 0, _ => []
  | width + 1, n => UInt8.ofNat n :: toLe width (n / 256)

/-- The number with the given bytes, least significant first. -/
def fromLe : Bytes → Nat
  | [] => 0
  | b :: bs => b.toNat + 256 * fromLe bs

/-- The number with the given bytes, most significant first. -/
def fromBe (bs : Bytes) : Nat := fromLe bs.reverse

@[simp] theorem length_toLe (width n : Nat) : (toLe width n).length = width := by
  induction width generalizing n with
  | zero => rfl
  | succ width ih => simp [toLe, ih]

/-- Reading back what was written keeps the low `width` bytes. -/
theorem fromLe_toLe (width n : Nat) : fromLe (toLe width n) = n % 256 ^ width := by
  induction width generalizing n with
  | zero => simp [toLe, fromLe, Nat.mod_one]
  | succ width ih =>
    rw [toLe, fromLe, ih, UInt8.toNat_ofNat', pow_succ' 256 width, Nat.mod_mul]

theorem fromLe_toLe_of_lt {width n : Nat} (h : n < 256 ^ width) :
    fromLe (toLe width n) = n := by
  rw [fromLe_toLe, Nat.mod_eq_of_lt h]

theorem fromLe_lt (bs : Bytes) : fromLe bs < 256 ^ bs.length := by
  induction bs with
  | nil => simp [fromLe]
  | cons b bs ih =>
    have hb := b.toNat_lt
    rw [fromLe, List.length_cons, pow_succ']
    omega

/-- Writing back what was read gives the bytes again. -/
theorem toLe_fromLe (bs : Bytes) : toLe bs.length (fromLe bs) = bs := by
  induction bs with
  | nil => rfl
  | cons b bs ih =>
    have hb := b.toNat_lt
    have hlow : UInt8.ofNat (b.toNat + 256 * fromLe bs) = b := by
      rw [← UInt8.toNat_inj, UInt8.toNat_ofNat']
      omega
    rw [List.length_cons, fromLe, toLe, hlow, show (b.toNat + 256 * fromLe bs) / 256 = fromLe bs by
      omega, ih]

/-- A property of bytes, checked on their 256 values. -/
theorem forall_uint8 {p : UInt8 → Prop} (h : ∀ i : Fin 256, p (UInt8.ofFin i)) (b : UInt8) :
    p b := by
  simpa using h b.toFin

/-- A `[u8; n]`. -/
abbrev Block (n : Nat) := { bytes : Bytes // bytes.length = n }

/-- The last `width` bytes of `n`, most significant first. -/
def toBe : Nat → Nat → Bytes
  | 0, _ => []
  | width + 1, n => UInt8.ofNat (n / 256 ^ width) :: toBe width n

@[simp] theorem length_toBe (width n : Nat) : (toBe width n).length = width := by
  induction width with
  | zero => rfl
  | succ width ih => rw [toBe, List.length_cons, ih]

theorem fromLe_append (bs bs' : Bytes) :
    fromLe (bs ++ bs') = fromLe bs + 256 ^ bs.length * fromLe bs' := by
  induction bs with
  | nil => simp [fromLe]
  | cons b bs ih =>
    rw [List.cons_append, fromLe, fromLe, ih, List.length_cons]
    ring

theorem fromBe_cons (b : UInt8) (bs : Bytes) :
    fromBe (b :: bs) = fromBe bs + 256 ^ bs.length * b.toNat := by
  rw [fromBe, List.reverse_cons, fromLe_append, List.length_reverse]
  rfl

theorem fromBe_lt (bs : Bytes) : fromBe bs < 256 ^ bs.length := by
  rw [← List.length_reverse]
  exact fromLe_lt bs.reverse

theorem fromBe_toBe (width n : Nat) : fromBe (toBe width n) = n % 256 ^ width := by
  induction width with
  | zero => simp [toBe, fromBe, fromLe, Nat.mod_one]
  | succ width ih =>
    rw [toBe, fromBe_cons, ih, length_toBe, UInt8.toNat_ofNat', pow_succ 256 width, Nat.mod_mul]

/-! ### Buffers position by position -/

/-- The byte at a position, with 0 past the end. -/
def byteAt (buf : Bytes) (i : Nat) : UInt8 := buf.getD i 0

theorem index_byteAt {buf : Bytes} {i : Nat} (h : i < buf.length) :
    index buf i = .ok (byteAt buf i) := by
  rw [index_eq_ok h, byteAt, List.getD_eq_getElem buf 0 h]

theorem byteAt_set {buf : Bytes} {i : Nat} (b : UInt8) (h : i < buf.length) (j : Nat) :
    byteAt (buf.set i b) j = if j = i then b else byteAt buf j := by
  by_cases hj : j = i
  · subst hj
    simp [byteAt, List.getD_eq_getElem?_getD, List.getElem?_set_self h]
  · simp [byteAt, List.getD_eq_getElem?_getD, List.getElem?_set_ne (Ne.symm hj), hj]

theorem byteAt_splice {buf src : Bytes} {lo : Nat} (h : lo + src.length ≤ buf.length)
    (j : Nat) :
    byteAt (splice buf lo src) j =
      if lo ≤ j ∧ j < lo + src.length then byteAt src (j - lo) else byteAt buf j :=
  getD_splice h j 0

/-- The `len` bytes from position `lo` on. -/
def window (buf : Bytes) (lo len : Nat) : Bytes := (buf.drop lo).take len

theorem slice_window {buf : Bytes} {lo hi : Nat} (h : lo ≤ hi) (h' : hi ≤ buf.length) :
    slice buf lo hi = .ok (window buf lo (hi - lo)) :=
  slice_eq_ok h h'

theorem length_window {buf : Bytes} {lo len : Nat} (h : lo + len ≤ buf.length) :
    (window buf lo len).length = len := by
  simp only [window, List.length_take, List.length_drop]
  omega

/-- Inside the buffer a window lists the bytes at its positions. -/
theorem window_eq_map {buf : Bytes} {lo len : Nat} (h : lo + len ≤ buf.length) :
    window buf lo len = (List.range len).map fun k => byteAt buf (lo + k) := by
  apply List.ext_getElem
  · simp [length_window h]
  · intro k hk _
    rw [length_window h] at hk
    simp only [window, List.getElem_take, List.getElem_drop, List.getElem_map,
      List.getElem_range, byteAt]
    rw [List.getD_eq_getElem buf 0 (by omega)]

theorem window_append (buf : Bytes) (lo k len : Nat) :
    window buf lo (k + len) = window buf lo k ++ window buf (lo + k) len := by
  rw [window, window, window, List.take_add, List.drop_drop]

/-- Two buffers that agree on the positions of a window have the same window. -/
theorem window_congr {buf buf' : Bytes} {lo len : Nat} (h : lo + len ≤ buf.length)
    (h' : lo + len ≤ buf'.length)
    (heq : ∀ j, lo ≤ j → j < lo + len → byteAt buf' j = byteAt buf j) :
    window buf' lo len = window buf lo len := by
  rw [window_eq_map h, window_eq_map h']
  refine List.map_congr_left fun k hk => ?_
  have hk := List.mem_range.mp hk
  exact heq (lo + k) (by omega) (by omega)

/-- A copied slice is read back from where it was copied to. -/
theorem window_splice_self {buf src : Bytes} {lo : Nat} (h : lo + src.length ≤ buf.length) :
    window (splice buf lo src) lo src.length = src := by
  have hlo : (buf.take lo).length = lo := by rw [List.length_take]; omega
  rw [window, splice, List.append_assoc, List.drop_append_of_le_length (by omega),
    List.drop_eq_nil_of_le hlo.le, List.nil_append, List.take_append_of_le_length le_rfl,
    List.take_length]

/-- `[buf[lo], buf[lo + 1], …]` with `n` elements, which stops past the end. -/
def bytesAt (buf : Bytes) : Nat → Nat → Exec Bytes
  | _, 0 => return []
  | lo, n + 1 => do return (← index buf lo) :: (← bytesAt buf (lo + 1) n)

theorem bytesAt_eq_ok {buf : Bytes} {lo n : Nat} (h : lo + n ≤ buf.length) :
    bytesAt buf lo n = .ok (window buf lo n) := by
  induction n generalizing lo with
  | zero => simp [bytesAt, window]
  | succ n ih =>
    have hlo : lo < buf.length := by omega
    rw [bytesAt, index_eq_ok hlo, ok_bind, ih (by omega), ok_bind, window, window,
      List.drop_eq_getElem_cons hlo, List.take_succ_cons]
    rfl

/-- The big-endian number in the `n` bytes at an offset, or 0 where they do not lie inside. -/
def readBe (buf : Bytes) (off n : Nat) : Exec Nat := do
  if (← u64 (off + n)) ≤ buf.length then return fromBe (← bytesAt buf off n) else return 0

theorem readBe_eq_ok {buf : Bytes} {off n : Nat} (h : off + n < 2 ^ 64) :
    readBe buf off n =
      .ok (if off + n ≤ buf.length then fromBe (window buf off n) else 0) := by
  rw [readBe, u64_eq_ok h, ok_bind]
  by_cases hend : off + n ≤ buf.length
  · rw [if_pos hend, if_pos hend, bytesAt_eq_ok hend]
    rfl
  · rw [if_neg hend, if_neg hend]
    rfl

end MerlionKernel.Rust
