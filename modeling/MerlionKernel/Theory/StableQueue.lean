import Mathlib.Data.List.Basic
import Mathlib.Data.List.Perm.Basic

/-!
# Priority queues that keep the order of arrival

Waiting elements have a priority. The one to serve next is, of those with the highest
priority, the one that arrived first. `takeMax` says so for the elements in the order of
their arrival. An implementation keeps them in the order in which they will be served
instead; `ServedFrom` relates the two lists, and inserting behind all elements of at least
the same priority keeps the relation.
-/

namespace MerlionKernel.Theory

universe u

variable {α : Type u} {key : α → Nat} {xs ys arrived rest : List α} {m x : α}

/-- Take the first of the elements of highest priority. -/
def takeMax (key : α → Nat) : List α → Option (α × List α)
  | [] => none
  | x :: xs =>
    match takeMax key xs with
    | none => some (x, [])
    | some (best, others) => if key x < key best then some (best, x :: others) else some (x, xs)

theorem takeMax_eq_none_iff : takeMax key xs = none ↔ xs = [] := by
  cases xs with
  | nil => simp [takeMax]
  | cons x xs =>
    unfold takeMax
    split
    · simp
    · split_ifs
      · simp
      · simp

/-- What is taken had only elements of lower priority before it, and none of higher priority
behind it. -/
theorem split_of_takeMax (h : takeMax key xs = some (m, rest)) :
    ∃ front back, xs = front ++ m :: back ∧ rest = front ++ back ∧
      (∀ x ∈ front, key x < key m) ∧ ∀ x ∈ back, key x ≤ key m := by
  induction xs generalizing m rest with
  | nil => cases h
  | cons x xs ih =>
    unfold takeMax at h
    split at h
    · rename_i hnone
      cases h
      obtain rfl := takeMax_eq_none_iff.mp hnone
      exact ⟨[], [], rfl, rfl, by simp, by simp⟩
    · rename_i best others hsome
      obtain ⟨front, back, rfl, rfl, hfront, hback⟩ := ih hsome
      split_ifs at h with hlt
      · cases h
        refine ⟨x :: front, back, rfl, rfl, fun y hy => ?_, hback⟩
        rcases List.mem_cons.mp hy with rfl | hy
        · exact hlt
        · exact hfront y hy
      · cases h
        refine ⟨[], front ++ best :: back, rfl, rfl, by simp, fun y hy => ?_⟩
        have hbest := Nat.not_lt.mp hlt
        rcases List.mem_append.mp hy with hy | hy
        · exact Nat.le_trans (Nat.le_of_lt (hfront y hy)) hbest
        · rcases List.mem_cons.mp hy with rfl | hy
          · exact hbest
          · exact Nat.le_trans (hback y hy) hbest

/-- There is only one such element. -/
theorem takeMax_of_split {front back : List α} (hfront : ∀ x ∈ front, key x < key m)
    (hback : ∀ x ∈ back, key x ≤ key m) :
    takeMax key (front ++ m :: back) = some (m, front ++ back) := by
  induction front with
  | nil =>
    rw [List.nil_append, takeMax]
    split
    · rename_i hnone
      rw [takeMax_eq_none_iff.mp hnone]
      rfl
    · rename_i best others hsome
      obtain ⟨l, r, rfl, -⟩ := split_of_takeMax hsome
      rw [if_neg (Nat.not_lt.mpr (hback best (by simp)))]
      rfl
  | cons x front ih =>
    rw [List.cons_append, takeMax, ih fun y hy => hfront y (List.mem_cons_of_mem x hy)]
    simp [hfront x List.mem_cons_self]

theorem takeMax_eq_some_iff :
    takeMax key xs = some (m, rest) ↔
      ∃ front back, xs = front ++ m :: back ∧ rest = front ++ back ∧
        (∀ x ∈ front, key x < key m) ∧ ∀ x ∈ back, key x ≤ key m := by
  constructor
  · exact split_of_takeMax
  · rintro ⟨front, back, rfl, rfl, hfront, hback⟩
    exact takeMax_of_split hfront hback

/-- The elements of `arrived` by decreasing priority, and those of one priority in the order
in which they arrived. -/
structure ServedFrom (key : α → Nat) (xs arrived : List α) : Prop where
  sorted : xs.Pairwise fun x y => key y ≤ key x
  stable : ∀ k, xs.filter (fun x => key x = k) = arrived.filter fun x => key x = k

namespace ServedFrom

theorem nil : ServedFrom key [] [] := ⟨.nil, fun _ => rfl⟩

theorem mem_iff (h : ServedFrom key xs arrived) : x ∈ xs ↔ x ∈ arrived := by
  have hmem : ∀ l : List α, x ∈ l ↔ x ∈ l.filter fun y => key y = key x := by simp
  rw [hmem xs, hmem arrived, h.stable]

theorem eq_nil_iff (h : ServedFrom key xs arrived) : xs = [] ↔ arrived = [] := by
  rw [List.eq_nil_iff_forall_not_mem, List.eq_nil_iff_forall_not_mem]
  exact forall_congr' fun x => not_congr h.mem_iff

/-- A new element goes behind all elements of at least its priority. -/
theorem insert {l r : List α} (h : ServedFrom key (l ++ r) arrived)
    (hl : ∀ y ∈ l, key x ≤ key y) (hr : ∀ y ∈ r, key y < key x) :
    ServedFrom key (l ++ x :: r) (arrived ++ [x]) := by
  obtain ⟨hsorted, hstable⟩ := h
  rw [List.pairwise_append] at hsorted
  obtain ⟨hsl, hsr, hcross⟩ := hsorted
  refine ⟨?_, fun k => ?_⟩
  · rw [List.pairwise_append, List.pairwise_cons]
    refine ⟨hsl, ⟨fun y hy => Nat.le_of_lt (hr y hy), hsr⟩, fun y hy z hz => ?_⟩
    rcases List.mem_cons.mp hz with rfl | hz
    · exact hl y hy
    · exact hcross y hy z hz
  · rw [List.filter_append, List.filter_cons, List.filter_append arrived, ← hstable,
      List.filter_append, List.append_assoc]
    congr 1
    by_cases hk : key x = k
    · -- Nothing of this priority stands behind the place of insertion.
      have hnone : r.filter (fun y => key y = k) = [] := by
        rw [List.filter_eq_nil_iff]
        intro y hy
        have := hr y hy
        simp only [decide_eq_true_eq]
        omega
      simp [hk, hnone]
    · simp [hk]

/-- The first element is the one that `takeMax` takes. -/
theorem pop (h : ServedFrom key (m :: xs) arrived) :
    ∃ rest, takeMax key arrived = some (m, rest) ∧ ServedFrom key xs rest := by
  have hstable := h.stable (key m)
  rw [List.filter_cons_of_pos (by simp), eq_comm, List.filter_eq_cons_iff] at hstable
  obtain ⟨front, back, rfl, hfront, -, hback⟩ := hstable
  simp only [decide_eq_true_eq] at hfront
  obtain ⟨hhead, hsorted⟩ := List.pairwise_cons.mp h.sorted
  have hle : ∀ x ∈ front ++ m :: back, key x ≤ key m := by
    intro x hx
    rcases List.mem_cons.mp (h.mem_iff.mpr hx) with rfl | hx
    · exact Nat.le_refl _
    · exact hhead x hx
  refine ⟨front ++ back, takeMax_of_split (fun x hx => ?_) (fun x hx => ?_), hsorted, fun k => ?_⟩
  · exact Nat.lt_of_le_of_ne (hle x (by simp [hx])) (hfront x hx)
  · exact hle x (by simp [hx])
  · by_cases hk : key m = k
    · subst hk
      have hnone : front.filter (fun y => key y = key m) = [] := by
        rw [List.filter_eq_nil_iff]
        simpa using hfront
      rw [List.filter_append, hnone, List.nil_append, hback]
    · have hk' := h.stable k
      simpa [hk] using hk'

end ServedFrom

end MerlionKernel.Theory
