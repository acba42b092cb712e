import MerlionKernel.Diff.Model
import MerlionKernel.Theory.Lcs

/-!
# The difference is a minimal edit script

The cells of the table are the lengths of longest common subsequences of initial parts of
the two line lists. The walk back takes an equal pair of lines without looking at the
table, and otherwise follows the larger neighbour; both moves lose nothing, so it keeps as
many lines as any script can, and no script that turns the old lines into the new ones has
fewer insertions and deletions.
-/

namespace MerlionKernel.Diff

open Rust Theory

variable {old new : List String} {t : List (List Nat)}

/-! ### The table -/

/-- The value of a cell is correct. -/
def Correct (old new : List String) (t : List (List Nat)) (i j : Nat) : Prop :=
  ∃ v, cell t i j = .ok v ∧ IsLcsLength v (old.take i) (new.take j)

/-- The table is correct in its margins, in the rows before `i` and in row `i` before
column `j`. -/
structure FilledTo (old new : List String) (t : List (List Nat)) (i j : Nat) : Prop where
  shape : Shape t (old.length + 1) (new.length + 1)
  correct : ∀ a ≤ old.length, ∀ b ≤ new.length, a = 0 ∨ b = 0 ∨ a < i ∨ a = i ∧ b < j →
    Correct old new t a b

theorem cellValue_spec {i j : Nat} (h : FilledTo old new t (i + 1) (j + 1))
    (hi : i < old.length) (hj : j < new.length) :
    Returns (cellValue old new t (i + 1) (j + 1)) fun v =>
      IsLcsLength v (old.take (i + 1)) (new.take (j + 1)) := by
  obtain ⟨d, hd, hdiag⟩ := h.correct i (by omega) j (by omega) (by omega)
  obtain ⟨m, hm, habove⟩ := h.correct i (by omega) (j + 1) (by omega) (by omega)
  obtain ⟨n, hn, hleft⟩ := h.correct (i + 1) (by omega) j (by omega) (by omega)
  simp only [cellValue, Nat.add_sub_cancel, index_eq_ok hi, index_eq_ok hj, ok_bind]
  rw [← List.take_append_getElem hi, ← List.take_append_getElem hj] at *
  by_cases heq : old[i] = new[j]
  · rw [if_pos heq, hd, ok_bind, ← heq]
    exact .ok (hdiag.concat_self _)
  · rw [if_neg heq, hm, ok_bind, hn, ok_bind]
    exact .ok (.concat_of_ne heq habove hleft)

theorem fillCell_spec {i j : Nat} (h : FilledTo old new t (i + 1) (j + 1))
    (hi : i < old.length) (hj : j < new.length) :
    Returns (fillCell old new (i + 1) t (j + 1)) fun t' =>
      FilledTo old new t' (i + 1) (j + 2) := by
  refine (cellValue_spec h hi hj).bind fun v hv => ?_
  refine (setCell_spec h.shape (by omega) (by omega) v).mono fun t' ht' => ?_
  refine ⟨ht'.1, fun a ha b hb hab => ?_⟩
  unfold Correct
  rw [ht'.2]
  by_cases hhere : a = i + 1 ∧ b = j + 1
  · obtain ⟨rfl, rfl⟩ := hhere
    exact ⟨v, if_pos ⟨rfl, rfl⟩, hv⟩
  · rw [if_neg hhere]
    exact h.correct a ha b hb (by omega)

theorem fillRow_spec {i : Nat} (h : FilledTo old new t (i + 1) 1) (hi : i < old.length) :
    Returns (fillRow old new t (i + 1)) fun t' => FilledTo old new t' (i + 2) 1 := by
  refine (foldlM_range'_returns (fun j t' => FilledTo old new t' (i + 1) j) 1 new.length
    (fun j hlo hj t' ht' => ?_) h).mono fun t' ht' => ⟨ht'.shape, fun a ha b hb hab => ?_⟩
  · obtain ⟨j, rfl⟩ := Nat.exists_eq_add_of_le' hlo
    exact fillCell_spec ht' hi (by omega)
  · exact ht'.correct a ha b hb (by omega)

/-- Every cell of the table is the length of a longest common subsequence. -/
theorem lcsTable_spec (old new : List String) :
    Returns (lcsTable old new) fun t =>
      ∀ i ≤ old.length, ∀ j ≤ new.length, Correct old new t i j := by
  have hstart : FilledTo old new
      (List.replicate (old.length + 1) (List.replicate (new.length + 1) 0)) 1 1 := by
    refine ⟨shape_replicate .., fun a ha b hb hab =>
      ⟨0, cell_replicate (by omega) (by omega) 0, ?_⟩⟩
    -- The margins belong to an empty initial part.
    obtain rfl | rfl : a = 0 ∨ b = 0 := by omega
    · exact .nil_left _
    · exact .nil_right _
  refine (foldlM_range'_returns (fun i t => FilledTo old new t i 1) 1 old.length
    (fun i hlo hi t ht => ?_) hstart).mono fun t ht i hi j hj => ?_
  · obtain ⟨i, rfl⟩ := Nat.exists_eq_add_of_le' hlo
    exact fillRow_spec ht (by omega)
  · exact ht.correct i hi j hj (by omega)

/-! ### Scripts -/

/-- The lines that an operation takes from the old text. -/
def DiffOp.oldLine : DiffOp → List String
  | .equal line => [line]
  | .insert _ => []
  | .delete line => [line]

/-- The lines that an operation gives to the new text. -/
def DiffOp.newLine : DiffOp → List String
  | .equal line => [line]
  | .insert line => [line]
  | .delete _ => []

/-- The line that an operation keeps. -/
def DiffOp.equalLine : DiffOp → List String
  | .equal line => [line]
  | .insert _ => []
  | .delete _ => []

/-- The `Equal` and `Delete` lines of a script, in order. -/
def oldLines (ops : List DiffOp) : List String := ops.flatMap DiffOp.oldLine

/-- The `Equal` and `Insert` lines of a script, in order. -/
def newLines (ops : List DiffOp) : List String := ops.flatMap DiffOp.newLine

/-- The `Equal` lines of a script, in order. -/
def equalLines (ops : List DiffOp) : List String := ops.flatMap DiffOp.equalLine

/-- The number of `Equal` operations of a script. -/
def equalCount (ops : List DiffOp) : Nat := (equalLines ops).length

/-- The operation is an insertion or a deletion. -/
def DiffOp.isChange : DiffOp → Bool
  | .equal _ => false
  | .insert _ => true
  | .delete _ => true

/-- The number of insertions and deletions of a script. -/
def changeCount (ops : List DiffOp) : Nat := ops.countP DiffOp.isChange

theorem equalLines_sublist_oldLines (ops : List DiffOp) :
    (equalLines ops).Sublist (oldLines ops) := by
  induction ops with
  | nil => exact .slnil
  | cons op ops ih =>
    refine List.Sublist.append ?_ ih
    cases op <;> simp [DiffOp.equalLine, DiffOp.oldLine]

theorem equalLines_sublist_newLines (ops : List DiffOp) :
    (equalLines ops).Sublist (newLines ops) := by
  induction ops with
  | nil => exact .slnil
  | cons op ops ih =>
    refine List.Sublist.append ?_ ih
    cases op <;> simp [DiffOp.equalLine, DiffOp.newLine]

/-- A kept line counts in both texts, a changed one in one of them. -/
theorem changeCount_add_equalCount (ops : List DiffOp) :
    changeCount ops + 2 * equalCount ops = (oldLines ops).length + (newLines ops).length := by
  induction ops with
  | nil => rfl
  | cons op ops ih =>
    simp only [changeCount, equalCount, equalLines, oldLines, newLines, List.flatMap_cons,
      List.length_append, List.countP_cons] at ih ⊢
    cases op <;> simp only [DiffOp.oldLine, DiffOp.newLine, DiffOp.equalLine, DiffOp.isChange,
      List.length_cons, List.length_nil, Bool.false_eq_true, if_true, if_false] <;> omega

/-- A script that keeps a longest common subsequence has the fewest changes. -/
theorem changeCount_le_of_isLcsLength {ops ops' : List DiffOp}
    (hold : oldLines ops' = oldLines ops) (hnew : newLines ops' = newLines ops)
    (h : IsLcsLength (equalCount ops) (oldLines ops) (newLines ops)) :
    changeCount ops ≤ changeCount ops' := by
  have hkept : equalCount ops' ≤ equalCount ops :=
    h.bound _ (hold ▸ equalLines_sublist_oldLines ops') (hnew ▸ equalLines_sublist_newLines ops')
  have hcount := changeCount_add_equalCount ops
  have hcount' := changeCount_add_equalCount ops'
  rw [hold, hnew] at hcount'
  omega

/-! ### The walk back -/

/-- The operations collected so far, read backwards, relate the lines behind the walk's
position, and completing them with a best script for the lines before it is best. -/
structure Walked (old new : List String) (s : Walk) : Prop where
  i_le : s.i ≤ old.length
  j_le : s.j ≤ new.length
  old_eq : oldLines s.ops.reverse = old.drop s.i
  new_eq : newLines s.ops.reverse = new.drop s.j
  best : ∀ v, IsLcsLength v (old.take s.i) (new.take s.j) →
    IsLcsLength (v + equalCount s.ops.reverse) old new

section Steps

variable {i j : Nat} {ops : List DiffOp}

theorem Walked.equal (h : Walked old new ⟨i + 1, j + 1, ops⟩) (hi : i < old.length)
    (hj : j < new.length) (heq : old[i] = new[j]) :
    Walked old new ⟨i, j, ops ++ [.equal old[i]]⟩ where
  i_le := hi.le
  j_le := hj.le
  old_eq := by
    rw [List.drop_eq_getElem_cons hi, ← h.old_eq, List.reverse_concat]
    rfl
  new_eq := by
    rw [List.drop_eq_getElem_cons hj, ← h.new_eq, List.reverse_concat, ← heq]
    rfl
  best := by
    intro v hv
    have hlcs := h.best (v + 1) (by
      rw [← List.take_append_getElem hi, ← List.take_append_getElem hj, ← heq]
      exact hv.concat_self _)
    rw [List.reverse_concat]
    simpa [equalCount, equalLines, DiffOp.equalLine, Nat.add_assoc, Nat.add_comm] using hlcs

theorem Walked.insert (h : Walked old new ⟨i, j + 1, ops⟩) (hj : j < new.length)
    (hmove : ∀ v, IsLcsLength v (old.take i) (new.take j) →
      IsLcsLength v (old.take i) (new.take (j + 1))) :
    Walked old new ⟨i, j, ops ++ [.insert new[j]]⟩ where
  i_le := h.i_le
  j_le := hj.le
  old_eq := by
    rw [← h.old_eq, List.reverse_concat]
    rfl
  new_eq := by
    rw [List.drop_eq_getElem_cons hj, ← h.new_eq, List.reverse_concat]
    rfl
  best := by
    intro v hv
    rw [List.reverse_concat]
    exact h.best v (hmove v hv)

theorem Walked.delete (h : Walked old new ⟨i + 1, j, ops⟩) (hi : i < old.length)
    (hmove : ∀ v, IsLcsLength v (old.take i) (new.take j) →
      IsLcsLength v (old.take (i + 1)) (new.take j)) :
    Walked old new ⟨i, j, ops ++ [.delete old[i]]⟩ where
  i_le := hi.le
  j_le := h.j_le
  old_eq := by
    rw [List.drop_eq_getElem_cons hi, ← h.old_eq, List.reverse_concat]
    rfl
  new_eq := by
    rw [← h.new_eq, List.reverse_concat]
    rfl
  best := by
    intro v hv
    rw [List.reverse_concat]
    exact h.best v (hmove v hv)

end Steps

/-- A finished script: it relates the two texts and keeps as many lines as possible. -/
def Best (old new : List String) (ops : List DiffOp) : Prop :=
  oldLines ops = old ∧ newLines ops = new ∧ IsLcsLength (equalCount ops) old new

theorem Walked.finish {ops : List DiffOp} (h : Walked old new ⟨0, 0, ops⟩) :
    Best old new ops.reverse := by
  refine ⟨h.old_eq, h.new_eq, ?_⟩
  have hbest := h.best 0 (.nil_left _)
  rwa [Nat.zero_add] at hbest

/-- Away from the margins, the walk moves along the table. -/
theorem backtrackRound_inner (ht : ∀ i ≤ old.length, ∀ j ≤ new.length, Correct old new t i j)
    {i j : Nat} {ops : List DiffOp} (h : Walked old new ⟨i + 1, j + 1, ops⟩) :
    Returns (backtrackRound t old new ⟨i + 1, j + 1, ops⟩)
      (ControlFlow.Post (fun s' => Walked old new s' ∧ s'.i + s'.j < i + 1 + (j + 1))
        (Best old new)) := by
  have hi : i < old.length := h.i_le
  have hj : j < new.length := h.j_le
  simp only [backtrackRound, sameLine, Nat.zero_lt_succ, and_self, or_self, if_true,
    Nat.add_sub_cancel, index_eq_ok hi, index_eq_ok hj, ok_bind, pure_eq_ok, decide_eq_true_eq]
  by_cases heq : old[i] = new[j]
  · rw [if_pos heq]
    exact .ok ⟨h.equal hi hj heq, by dsimp only; omega⟩
  · obtain ⟨m, hm, habove⟩ := ht i (by omega) (j + 1) (by omega)
    obtain ⟨n, hn, hleft⟩ := ht (i + 1) (by omega) j (by omega)
    have hlcs : IsLcsLength (max m n) (old.take (i + 1)) (new.take (j + 1)) := by
      rw [← List.take_append_getElem hi, ← List.take_append_getElem hj] at *
      exact .concat_of_ne heq habove hleft
    simp only [if_neg heq, prefersInsert, Nat.zero_lt_succ, if_true, Nat.add_one_ne_zero, if_false,
      Nat.add_sub_cancel, hm, hn, ok_bind, pure_eq_ok, decide_eq_true_eq]
    by_cases hle : m ≤ n
    · rw [if_pos hle]
      refine .ok ⟨h.insert hj fun v hv => ?_, by dsimp only; omega⟩
      rwa [hv.unique hleft, ← Nat.max_eq_right hle]
    · rw [if_neg hle]
      refine .ok ⟨h.delete hi fun v hv => ?_, by dsimp only; omega⟩
      rwa [hv.unique habove, ← Nat.max_eq_left (Nat.le_of_not_le hle)]

theorem backtrackRound_spec (ht : ∀ i ≤ old.length, ∀ j ≤ new.length, Correct old new t i j)
    (s : Walk) (h : Walked old new s) :
    Returns (backtrackRound t old new s)
      (ControlFlow.Post (fun s' => Walked old new s' ∧ s'.i + s'.j < s.i + s.j)
        (Best old new)) := by
  obtain ⟨i, j, ops⟩ := s
  match i, j with
  | 0, 0 => exact .ok h.finish
  | 0, j + 1 =>
    have hj : j < new.length := h.j_le
    simp only [backtrackRound, sameLine, prefersInsert, Nat.lt_irrefl, Nat.zero_lt_succ, or_true,
      false_and, if_true, if_false, pure_eq_ok, ok_bind, Bool.false_eq_true, Nat.add_sub_cancel,
      index_eq_ok hj]
    refine .ok ⟨h.insert hj fun v hv => ?_, by dsimp only; omega⟩
    rw [hv.unique (.nil_left _)]
    exact .nil_left _
  | i + 1, 0 =>
    have hi : i < old.length := h.i_le
    simp only [backtrackRound, sameLine, prefersInsert, Nat.lt_irrefl, Nat.zero_lt_succ, true_or,
      and_false, if_true, if_false, pure_eq_ok, ok_bind, Bool.false_eq_true, Nat.add_sub_cancel,
      index_eq_ok hi]
    refine .ok ⟨h.delete hi fun v hv => ?_, by dsimp only; omega⟩
    rw [hv.unique (.nil_right _)]
    exact .nil_right _
  | i + 1, j + 1 => exact backtrackRound_inner ht h

theorem backtrack_spec (ht : ∀ i ≤ old.length, ∀ j ≤ new.length, Correct old new t i j) :
    Returns (backtrack t old new) (Best old new) := by
  refine loop_returns (Walked old new) (fun s => s.i + s.j) (backtrackRound_spec ht) ?_
    (Nat.lt_succ_self _)
  refine ⟨le_rfl, le_rfl, List.drop_length.symm, List.drop_length.symm, fun v hv => ?_⟩
  rwa [List.take_length, List.take_length] at hv

/-- The difference of two texts returns a script between their lines, which keeps a longest
common subsequence and has no more changes than any other such script. -/
theorem diffLines_minimal (old new : String) :
    ∃ ops, diffLines old new = .ok ops ∧
      oldLines ops = splitLines old ∧ newLines ops = splitLines new ∧
      IsLcsLength (equalCount ops) (splitLines old) (splitLines new) ∧
      ∀ ops', oldLines ops' = splitLines old → newLines ops' = splitLines new →
        changeCount ops ≤ changeCount ops' := by
  obtain ⟨t, htable, ht⟩ := lcsTable_spec (splitLines old) (splitLines new)
  obtain ⟨ops, hwalk, hold, hnew, hlcs⟩ := backtrack_spec ht
  refine ⟨ops, ?_, hold, hnew, hlcs, fun ops' hold' hnew' => ?_⟩
  · rw [diffLines, htable, ok_bind, hwalk]
  · refine changeCount_le_of_isLcsLength (hold'.trans hold.symm) (hnew'.trans hnew.symm) ?_
    rwa [hold, hnew]

end MerlionKernel.Diff
