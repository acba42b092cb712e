import MerlionKernel.Rust.Exec

/-!
# Reading forward through a buffer

A decoder walks a buffer with a position. What it has not read yet is
`xs.drop pos`; the lemmas below say what a bounds-checked access at the position finds
and what is left afterwards when the unread part starts with a known block.
-/

namespace MerlionKernel.Rust

universe u

variable {α : Type u} {xs ys rest : List α} {a : α} {pos : Nat}

theorem lt_of_drop (h : xs.drop pos = a :: rest) : pos < xs.length := by
  by_contra hpos
  rw [List.drop_eq_nil_of_le (Nat.le_of_not_lt hpos)] at h
  cases h

theorem index_add_of_drop {k : Nat} (h : xs.drop pos = ys) (hk : ys[k]? = some a) :
    index xs (pos + k) = .ok a := by
  rw [index_eq_ok_iff, ← List.getElem?_drop, h, hk]

theorem index_of_drop (h : xs.drop pos = a :: rest) : index xs pos = .ok a :=
  index_add_of_drop (k := 0) h rfl

theorem drop_add_of_drop (h : xs.drop pos = ys ++ rest) :
    xs.drop (pos + ys.length) = rest := by
  rw [← List.drop_drop, h, List.drop_left]

theorem drop_succ_of_drop (h : xs.drop pos = a :: rest) : xs.drop (pos + 1) = rest :=
  drop_add_of_drop (show xs.drop pos = [a] ++ rest from h)

/-- Where something is left, the position and what is left make up the buffer. -/
theorem length_of_drop (h : xs.drop pos = ys) (hne : ys ≠ []) : pos + ys.length = xs.length := by
  subst h
  have hlt := List.length_pos_iff.mpr hne
  rw [List.length_drop] at hlt ⊢
  omega

theorem le_of_drop (hpos : pos ≤ xs.length) (h : xs.drop pos = ys ++ rest) :
    pos + ys.length ≤ xs.length := by
  have hlen := congrArg List.length h
  rw [List.length_drop, List.length_append] at hlen
  omega

theorem slice_of_drop (hpos : pos ≤ xs.length) (h : xs.drop pos = ys ++ rest) :
    slice xs pos (pos + ys.length) = .ok ys := by
  rw [slice_eq_ok (Nat.le_add_right _ _) (le_of_drop hpos h), h, Nat.add_sub_cancel_left,
    List.take_left]

theorem slice_to_end (hpos : pos ≤ xs.length) :
    slice xs pos xs.length = .ok (xs.drop pos) := by
  rw [slice_eq_ok hpos (Nat.le_refl _), List.take_of_length_le (Nat.le_of_eq List.length_drop)]

/-! ### Arrays read element by element -/

/-- The array `[xs[lo], xs[lo + 1], …]` of `n` elements. -/
def readArray (xs : List α) : Nat → Nat → Exec (List α)
  | _, 0 => return []
  | lo, n + 1 => do
    let a ← index xs lo
    let as ← readArray xs (lo + 1) n
    return a :: as

theorem readArray_of_drop (h : xs.drop pos = ys ++ rest) :
    readArray xs pos ys.length = .ok ys := by
  induction ys generalizing pos with
  | nil => rfl
  | cons a ys ih =>
    rw [List.length_cons, readArray, index_of_drop h, ok_bind, ih (drop_succ_of_drop h)]
    rfl

/-- `xs[lo] = a`, `xs[lo + 1] = b` and so on. -/
def storeArray (xs : List α) (lo : Nat) : List α → Exec (List α)
  | [] => return xs
  | a :: as => do
    let xs ← store xs lo a
    storeArray xs (lo + 1) as

/-- Elements in front of one that is stored stay. -/
theorem isPrefix_store {i : Nat} {a : α} {zs front : List α} (h : store xs i a = .ok zs)
    (hfront : front <+: xs) (hi : front.length ≤ i) : front <+: zs := by
  obtain ⟨tail, rfl⟩ := hfront
  unfold store at h
  split_ifs at h
  cases h
  rw [List.set_append_right _ _ hi]
  exact List.prefix_append _ _

/-- Elements in front of those that are stored stay. -/
theorem isPrefix_storeArray {lo : Nat} {zs front : List α} (h : storeArray xs lo ys = .ok zs)
    (hfront : front <+: xs) (hlo : front.length ≤ lo) : front <+: zs := by
  induction ys generalizing xs lo with
  | nil =>
    cases h
    exact hfront
  | cons a ys ih =>
    obtain ⟨xs', hstore, h⟩ := bind_eq_ok_iff.mp h
    exact ih h (isPrefix_store hstore hfront hlo) (Nat.le_succ_of_le hlo)

theorem length_of_readArray {n : Nat} (h : readArray xs pos n = .ok ys) : ys.length = n := by
  induction n generalizing pos ys with
  | zero => cases h; rfl
  | succ n ih =>
    rw [readArray, bind_eq_ok_iff] at h
    obtain ⟨a, -, h⟩ := h
    obtain ⟨as, has, hys⟩ := bind_eq_ok_iff.mp h
    cases hys
    rw [List.length_cons, ih has]

/-! ### What a successful read says about the buffer -/

theorem drop_of_index (h : index xs pos = .ok a) : xs.drop pos = a :: xs.drop (pos + 1) := by
  obtain ⟨hlt, rfl⟩ := List.getElem?_eq_some_iff.mp (index_eq_ok_iff.mp h)
  exact List.drop_eq_getElem_cons hlt

theorem drop_of_readArray {n : Nat} (h : readArray xs pos n = .ok ys) :
    xs.drop pos = ys ++ xs.drop (pos + n) := by
  induction n generalizing pos ys with
  | zero => cases h; rfl
  | succ n ih =>
    rw [readArray, bind_eq_ok_iff] at h
    obtain ⟨a, ha, h⟩ := h
    obtain ⟨as, has, hys⟩ := bind_eq_ok_iff.mp h
    cases hys
    rw [drop_of_index ha, ih has, List.cons_append, Nat.add_assoc, Nat.add_comm 1]

theorem drop_of_slice {hi : Nat} (h : slice xs pos hi = .ok ys) :
    xs.drop pos = ys ++ xs.drop hi := by
  unfold slice at h
  split at h
  · rename_i hrange
    cases h
    have hdrop : xs.drop hi = (xs.drop pos).drop (hi - pos) := by
      rw [List.drop_drop, Nat.add_sub_cancel' hrange.1]
    rw [hdrop, List.take_append_drop]
  · cases h

end MerlionKernel.Rust
