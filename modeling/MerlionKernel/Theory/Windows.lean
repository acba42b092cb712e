import Mathlib.Data.List.Basic
import Mathlib.Order.Interval.Set.Basic
import Mathlib.Tactic.SplitIfs

/-!
# Merging windows

Intervals of natural numbers, given by their first and last elements, are merged from left
to right: the interval that is open takes in the next window if the two overlap or touch,
and is closed otherwise. When the windows come with both ends in ascending order, the
intervals left cover what the windows cover, and there is a gap between any two of them.
-/

namespace MerlionKernel.Theory

/-- The intervals left after merging the windows into the open interval. -/
def mergeFrom (opened : Nat × Nat) : List (Nat × Nat) → List (Nat × Nat)
  | [] => [opened]
  | w :: ws =>
    if w.1 ≤ opened.2 + 1 then mergeFrom (opened.1, w.2) ws else opened :: mergeFrom w ws

/-- The intervals that a list of windows merges into. -/
def merge : List (Nat × Nat) → List (Nat × Nat)
  | [] => []
  | w :: ws => mergeFrom w ws

/-- Both ends of the first window are at most those of the second. -/
def Ascending (v w : Nat × Nat) : Prop := v.1 ≤ w.1 ∧ v.2 ≤ w.2

section Merge

variable {opened : Nat × Nat} {ws : List (Nat × Nat)}

/-- The interval that has taken a window in is still in order with the windows behind. -/
theorem ascending_joined {w : Nat × Nat} (h : (opened :: w :: ws).Pairwise Ascending) :
    ((opened.1, w.2) :: ws).Pairwise Ascending := by
  obtain ⟨hopened, hrest⟩ := List.pairwise_cons.mp h
  obtain ⟨hw, hws⟩ := List.pairwise_cons.mp hrest
  refine List.pairwise_cons.mpr ⟨fun v hv => ?_, hws⟩
  exact ⟨(hopened v (List.mem_cons_of_mem _ hv)).1, (hw v hv).2⟩

/-- No interval starts before the open one, and each is nonempty if the windows are. -/
theorem forall_mem_mergeFrom (hasc : (opened :: ws).Pairwise Ascending)
    (hvalid : ∀ w ∈ opened :: ws, w.1 ≤ w.2) :
    ∀ h ∈ mergeFrom opened ws, opened.1 ≤ h.1 ∧ h.1 ≤ h.2 := by
  induction ws generalizing opened with
  | nil =>
    intro h hmem
    obtain rfl := List.mem_singleton.mp hmem
    exact ⟨le_rfl, hvalid h List.mem_cons_self⟩
  | cons w ws ih =>
    have hopened := hvalid opened List.mem_cons_self
    have hw := (List.pairwise_cons.mp hasc).1 w List.mem_cons_self
    have hws : ∀ v ∈ w :: ws, v.1 ≤ v.2 := fun v hv => hvalid v (List.mem_cons_of_mem _ hv)
    intro h hmem
    rw [mergeFrom] at hmem
    split_ifs at hmem with hjoin
    · refine ih (ascending_joined hasc) ?_ h hmem
      refine List.forall_mem_cons.mpr ⟨hopened.trans hw.2, ?_⟩
      exact fun v hv => hws v (List.mem_cons_of_mem _ hv)
    · rcases List.mem_cons.mp hmem with rfl | hmem
      · exact ⟨le_rfl, hopened⟩
      · have hrest := ih (List.pairwise_cons.mp hasc).2 hws h hmem
        exact ⟨hw.1.trans hrest.1, hrest.2⟩

/-- The intervals come in order, and none of them touches the next. -/
theorem pairwise_mergeFrom (hasc : (opened :: ws).Pairwise Ascending)
    (hvalid : ∀ w ∈ opened :: ws, w.1 ≤ w.2) :
    (mergeFrom opened ws).Pairwise fun a b => a.2 + 1 < b.1 := by
  induction ws generalizing opened with
  | nil => exact List.pairwise_singleton _ _
  | cons w ws ih =>
    have hws : ∀ v ∈ w :: ws, v.1 ≤ v.2 := fun v hv => hvalid v (List.mem_cons_of_mem _ hv)
    rw [mergeFrom]
    split_ifs with hjoin
    · refine ih (ascending_joined hasc) (List.forall_mem_cons.mpr ⟨?_, ?_⟩)
      · have hw := (List.pairwise_cons.mp hasc).1 w List.mem_cons_self
        exact (hvalid opened List.mem_cons_self).trans hw.2
      · exact fun v hv => hws v (List.mem_cons_of_mem _ hv)
    · have hrest := (List.pairwise_cons.mp hasc).2
      refine List.pairwise_cons.mpr ⟨fun h hmem => ?_, ih hrest hws⟩
      exact (Nat.lt_of_not_le hjoin).trans_le (forall_mem_mergeFrom hrest hws h hmem).1

/-- The intervals cover exactly what the windows cover. -/
theorem covered_mergeFrom_iff (hasc : (opened :: ws).Pairwise Ascending) (i : Nat) :
    (∃ h ∈ mergeFrom opened ws, i ∈ Set.Icc h.1 h.2) ↔
      ∃ w ∈ opened :: ws, i ∈ Set.Icc w.1 w.2 := by
  induction ws generalizing opened with
  | nil => rfl
  | cons w ws ih =>
    rw [mergeFrom]
    split_ifs with hjoin
    · have hw := (List.pairwise_cons.mp hasc).1 w List.mem_cons_self
      -- The window starts inside the open interval or right behind it.
      have hunion : i ∈ Set.Icc opened.1 w.2 ↔
          i ∈ Set.Icc opened.1 opened.2 ∨ i ∈ Set.Icc w.1 w.2 := by
        simp only [Set.mem_Icc]
        have := hw.1
        have := hw.2
        omega
      rw [ih (ascending_joined hasc), List.exists_mem_cons_iff, List.exists_mem_cons_iff,
        List.exists_mem_cons_iff, hunion, or_assoc]
    · rw [List.exists_mem_cons_iff, List.exists_mem_cons_iff, ih (List.pairwise_cons.mp hasc).2]

theorem valid_merge (hasc : ws.Pairwise Ascending) (hvalid : ∀ w ∈ ws, w.1 ≤ w.2) :
    ∀ h ∈ merge ws, h.1 ≤ h.2 := by
  cases ws with
  | nil => exact nofun
  | cons w ws => exact fun h hmem => (forall_mem_mergeFrom hasc hvalid h hmem).2

theorem pairwise_merge (hasc : ws.Pairwise Ascending) (hvalid : ∀ w ∈ ws, w.1 ≤ w.2) :
    (merge ws).Pairwise fun a b => a.2 + 1 < b.1 := by
  cases ws with
  | nil => exact .nil
  | cons w ws => exact pairwise_mergeFrom hasc hvalid

theorem covered_merge_iff (hasc : ws.Pairwise Ascending) (i : Nat) :
    (∃ h ∈ merge ws, i ∈ Set.Icc h.1 h.2) ↔ ∃ w ∈ ws, i ∈ Set.Icc w.1 w.2 := by
  cases ws with
  | nil => rfl
  | cons w ws => exact covered_mergeFrom_iff hasc i

end Merge

end MerlionKernel.Theory
