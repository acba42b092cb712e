import Mathlib.Algebra.BigOperators.Group.List.Basic
import Mathlib.Algebra.Order.BigOperators.Group.List
import MerlionKernel.Rust.Fields
import MerlionKernel.Tar.Model

/-!
# Tar headers

`write_octal` writes the low digits of a number that fit the field, and `parse_octal` reads
them back. The header of a file is described by the fields that the reader looks at, and by
its checksum.
-/

namespace MerlionKernel.Tar

open Rust

/-! ### Octal fields -/

/-- The character of the last octal digit. -/
def octalDigit (n : Nat) : UInt8 := '0'.toUInt8 + .ofNat (n % 8)

/-- The last `width` octal digits, the most significant first. -/
def octalDigits : Nat → Nat → Bytes
  | 0, _ => []
  | width + 1, n => octalDigits width (n / 8) ++ [octalDigit n]

@[simp] theorem length_octalDigits (width n : Nat) : (octalDigits width n).length = width := by
  induction width generalizing n with
  | zero => rfl
  | succ width ih => rw [octalDigits, List.length_append, ih, List.length_singleton]

/-- The loop fills the buffer from the back up to the front. -/
theorem foldlM_octalRound {k : Nat} {buf : Bytes} (hk : k ≤ buf.length) (v : Nat) :
    (List.range k).reverse.foldlM octalRound (v, buf) =
      .ok (v / 8 ^ k, octalDigits k v ++ buf.drop k) := by
  induction k generalizing v buf with
  | zero => simp [octalDigits, pure_eq_ok]
  | succ k ih =>
    have hdigit : v &&& 7 = v % 8 := Nat.and_two_pow_sub_one_eq_mod v 3
    have hshift : v >>> 3 = v / 8 := Nat.shiftRight_eq_div_pow v 3
    rw [List.range_succ, List.reverse_concat, List.foldlM_cons, octalRound, store_eq_ok _ hk,
      ok_bind, hdigit, hshift, pure_eq_ok, ok_bind, ih (by rw [List.length_set]; omega),
      drop_set_self hk, Nat.div_div_eq_div_mul, ← pow_succ', octalDigits, List.append_assoc]
    rfl

theorem writeOctal_eq {width : Nat} {buf : Bytes} (hbuf : buf.length = width + 1) (value : Nat) :
    writeOctal value buf = .ok (octalDigits width value ++ [0]) := by
  have hstore : (buf.set width 0).drop width = [0] := by
    rw [drop_set_self (by omega), List.drop_eq_nil_of_le (by omega)]
  rw [writeOctal, hbuf, sub_eq_ok (by omega), ok_bind, Nat.add_sub_cancel,
    store_eq_ok _ (by omega), ok_bind, foldlM_octalRound (by rw [List.length_set]; omega), ok_bind,
    hstore]
  rfl

theorem octalLoop_octalDigits {width n value : Nat} (field : Bytes)
    (hfits : value * 8 ^ width + n % 8 ^ width < 2 ^ 64) :
    octalLoop value (octalDigits width n ++ field) =
      octalLoop (value * 8 ^ width + n % 8 ^ width) field := by
  induction width generalizing n field with
  | zero => simp [octalDigits, Nat.mod_one]
  | succ width ih =>
    have hmod : n % 8 ^ (width + 1) = n / 8 % 8 ^ width * 8 + n % 8 := by
      rw [pow_succ', Nat.mod_mul]
      omega
    have hvalue : value * 8 ^ (width + 1) + n % 8 ^ (width + 1) =
        (value * 8 ^ width + n / 8 % 8 ^ width) * 8 + n % 8 := by
      rw [hmod, pow_succ]
      ring
    have hfacts : ∀ d < 8, ¬ ('0'.toUInt8 + UInt8.ofNat d = 0 ∨
        '0'.toUInt8 + UInt8.ofNat d = ' '.toUInt8) ∧
        ('0'.toUInt8 ≤ '0'.toUInt8 + UInt8.ofNat d ∧
          '0'.toUInt8 + UInt8.ofNat d ≤ '7'.toUInt8) ∧
        ('0'.toUInt8 + UInt8.ofNat d - '0'.toUInt8).toNat = d := by decide
    obtain ⟨hend, hdigit, hval⟩ := hfacts (n % 8) (Nat.mod_lt n (by omega))
    rw [hvalue] at hfits ⊢
    rw [octalDigits, List.append_assoc, ih _ (by omega), List.singleton_append, octalLoop,
      octalDigit, if_neg hend, if_pos hdigit, hval, u64_eq_ok hfits, ok_bind]

/-- A number that fits its field is read back. -/
theorem parseOctal_octalDigits {width n : Nat} (hwidth : width ≤ 21) (hn : n < 8 ^ width)
    (rest : Bytes) : parseOctal (octalDigits width n ++ 0 :: rest) = .ok n := by
  have hbound : n < 2 ^ 64 :=
    calc n < 8 ^ width := hn
      _ ≤ 8 ^ 21 := Nat.pow_le_pow_right (by omega) hwidth
      _ < 2 ^ 64 := by decide
  have hmod := Nat.mod_eq_of_lt hn
  rw [parseOctal, octalLoop_octalDigits _ (by omega), hmod, Nat.zero_mul, Nat.zero_add, octalLoop,
    if_pos (.inl rfl), pure_eq_ok]

/-! ### The checksum -/

/-- What a byte of the header counts for the checksum. -/
def weight (header : Bytes) (i : Nat) : Nat :=
  if 148 ≤ i ∧ i < 156 then ' '.toUInt8.toNat else (byteAt header i).toNat

theorem computeChecksum_eq (header : Bytes) :
    computeChecksum header = ((List.range header.length).map (weight header)).sum := by
  have hmap : (List.range header.length).map (weight header) = header.zipIdx.map fun p =>
      if 148 ≤ p.2 ∧ p.2 < 156 then ' '.toUInt8.toNat else p.1.toNat := by
    apply List.ext_getElem
    · simp
    · intro i hi hi'
      rw [List.length_map, List.length_range] at hi
      simp [weight, byteAt, List.getElem?_eq_getElem hi]
  rw [hmap, List.sum_eq_foldl, List.foldl_map]
  rfl

/-- The checksum does not depend on its own field. -/
theorem computeChecksum_congr {header header' : Bytes} (hlen : header'.length = header.length)
    (h : ∀ i, i < 148 ∨ 156 ≤ i → byteAt header' i = byteAt header i) :
    computeChecksum header' = computeChecksum header := by
  rw [computeChecksum_eq, computeChecksum_eq, hlen]
  refine congrArg List.sum (List.map_congr_left fun i _ => ?_)
  unfold weight
  split_ifs with hi
  · rfl
  · rw [h i (by omega)]

/-- The checksum of a block fits six octal digits. -/
theorem computeChecksum_lt {header : Bytes} (hlen : header.length = blockSize) :
    computeChecksum header < 8 ^ 6 := by
  have hweight : ∀ w ∈ (List.range header.length).map (weight header), w ≤ 255 := by
    intro w hw
    obtain ⟨i, -, rfl⟩ := List.mem_map.mp hw
    unfold weight
    split_ifs
    · decide
    · exact Nat.le_of_lt_succ (byteAt header i).toNat_lt
  have hsum := List.sum_le_card_nsmul _ _ hweight
  rw [← computeChecksum_eq, List.length_map, List.length_range, hlen] at hsum
  exact Nat.lt_of_le_of_lt hsum (by decide)

/-! ### The header -/

/-- The name field: the name, cut to 100 bytes or filled up with zeros. -/
def nameField (name : String) : Bytes :=
  (asBytes name).take 100 ++ List.replicate (100 - (asBytes name).length) 0

/-- The header of a file. -/
structure IsHeader (name : String) (size : Nat) (hdr : Bytes) : Prop where
  length_eq : hdr.length = blockSize
  name_eq : window hdr 0 100 = nameField name
  size_eq : window hdr 124 12 = octalDigits 11 size ++ [0]
  checksum_eq : window hdr 148 8 = octalDigits 6 (computeChecksum hdr) ++ [0, ' '.toUInt8]
  typeflag_eq : window hdr 156 1 = ['0'.toUInt8]

theorem built_octal {n lo hi : Nat} {fields : List (Nat × Bytes)} {buf : Bytes}
    (h : Built n fields buf) (hlt : lo < hi) (hhi : hi ≤ n) (value : Nat) :
    Returns (modifySlice buf lo hi (writeOctal value))
      (Built n (fields ++ [(lo, octalDigits (hi - lo - 1) value ++ [0])])) := by
  refine h.modify (Nat.le_of_lt hlt) hhi (fun part hpart => writeOctal_eq (by omega) value) ?_
  rw [List.length_append, length_octalDigits, List.length_singleton]
  omega

/-- The fields that are written before the checksum is computed. -/
def fieldsBeforeChecksum (name : String) (size : Nat) : List (Nat × Bytes) :=
  [(0, (asBytes name).take 100), (100, octalDigits 7 0o644 ++ [0]), (108, octalDigits 7 0 ++ [0]),
    (116, octalDigits 7 0 ++ [0]), (124, octalDigits 11 size ++ [0]),
    (136, octalDigits 11 0 ++ [0]), (156, ['0'.toUInt8]), (257, asBytes "ustar\x00"),
    (263, asBytes "00"), (148, asBytes "        ")]

/-- The checksum field. -/
def checksumFields (cksum : Nat) : List (Nat × Bytes) :=
  [(148, octalDigits 6 cksum ++ [0]), (155, [' '.toUInt8])]

theorem createHeader_built (name : String) (contents : Bytes) :
    Returns (createHeader name contents) fun hdr => ∃ hdr₀,
      Built blockSize (fieldsBeforeChecksum name contents.length) hdr₀ ∧
        Built blockSize (fieldsBeforeChecksum name contents.length ++
          checksumFields (computeChecksum hdr₀)) hdr := by
  have hname : slice (asBytes name) 0 (min (asBytes name).length 100) =
      .ok ((asBytes name).take 100) := by
    rw [slice_eq_ok (Nat.zero_le _) (Nat.min_le_left _ _), List.drop_zero, Nat.sub_zero]
    exact congrArg Except.ok (List.take_eq_take_iff.mpr (by omega))
  rw [createHeader, hname, ok_bind]
  refine ((Built.zeros blockSize).copy ?_ ?_).bind fun hdr h => ?_
  · rw [List.length_take, Nat.zero_add, Nat.min_comm]
  · exact Nat.le_trans (Nat.min_le_right _ _) (by decide)
  refine (built_octal h (by decide) (by decide) _).bind fun hdr h => ?_
  refine (built_octal h (by decide) (by decide) _).bind fun hdr h => ?_
  refine (built_octal h (by decide) (by decide) _).bind fun hdr h => ?_
  refine (built_octal h (by decide) (by decide) _).bind fun hdr h => ?_
  refine (built_octal h (by decide) (by decide) _).bind fun hdr h => ?_
  refine (h.store _ (by decide)).bind fun hdr h => ?_
  refine (h.copy (by decide) (by decide)).bind fun hdr h => ?_
  refine (h.copy (by decide) (by decide)).bind fun hdr h => ?_
  refine (h.copy (by decide) (by decide)).bind fun hdr₀ h₀ => ?_
  refine (built_octal h₀ (by decide) (by decide) _).bind fun hdr h => ?_
  exact (h.store _ (by decide)).mono fun hdr h => ⟨hdr₀, h₀, h⟩

/-- The writer makes the header of the file. -/
theorem createHeader_returns (name : String) (contents : Bytes) :
    Returns (createHeader name contents) (IsHeader name contents.length) := by
  refine (createHeader_built name contents).mono ?_
  rintro hdr ⟨hdr₀, h₀, h⟩
  have hustar : (asBytes "ustar\x00").length = 6 := by decide
  have hversion : (asBytes "00").length = 2 := by decide
  have hspaces : (asBytes "        ").length = 8 := by decide
  have hcksum : computeChecksum hdr = computeChecksum hdr₀ := by
    refine computeChecksum_congr (by rw [h.length_eq, h₀.length_eq]) fun i hi => ?_
    refine h₀.byteAt_of_append h fun field hfield => ?_
    simp only [checksumFields, List.mem_cons, List.not_mem_nil, or_false] at hfield
    rcases hfield with rfl | rfl
    · simp only [List.length_append, length_octalDigits, List.length_singleton]
      omega
    · simp only [List.length_singleton]
      omega
  refine ⟨h.length_eq, ?_, ?_, ?_, ?_⟩
  · set k := ((asBytes name).take 100).length with hk
    have hk' : k = min 100 (asBytes name).length := by rw [hk, List.length_take]
    have hshown := h.window_eq (k := 0) rfl (by
      simp [fieldsBeforeChecksum, checksumFields, Apart])
    have hsum : k + (100 - k) = 100 := by omega
    have hfill : window hdr k (100 - k) = List.replicate (100 - k) 0 := by
      refine h.window_untouched ?_ (by rw [hsum]; decide)
      rw [Apart, hsum]
      simp [fieldsBeforeChecksum, checksumFields, hk']
    have hsplit := window_append hdr 0 k (100 - k)
    rw [Nat.zero_add, hshown, hfill, hsum] at hsplit
    rw [hsplit, nameField, show 100 - k = 100 - (asBytes name).length by omega]
  · have hshown := h.window_eq (k := 4) rfl (by
      simp [fieldsBeforeChecksum, checksumFields, Apart, hustar, hversion, hspaces])
    rwa [List.length_append, length_octalDigits, List.length_singleton] at hshown
  · have hdigits := h.window_eq (k := 10) rfl (by
      simp [fieldsBeforeChecksum, checksumFields, Apart])
    have hspace := h.window_eq (k := 11) rfl (by
      simp [fieldsBeforeChecksum, checksumFields, Apart])
    rw [List.length_append, length_octalDigits, List.length_singleton] at hdigits
    rw [window_append hdr 148 7 1, hdigits, hcksum, List.append_assoc]
    exact congrArg (fun byte => _ ++ ([0] ++ byte)) hspace
  · exact h.window_eq (k := 6) rfl (by
      simp [fieldsBeforeChecksum, checksumFields, Apart, hspaces])

end MerlionKernel.Tar
