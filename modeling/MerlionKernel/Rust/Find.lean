import Mathlib.Data.List.Basic
import Mathlib.Data.List.Nodup
import MerlionKernel.Rust.Exec

/-!
# Changing the first match

`iter_mut().find(p)` gives access to the first element of a vector that satisfies `p`, and
the caller changes it in place. `modifyFirst p f` is the vector afterwards. `changeFirst p f` is
the same for a change that may stop, with the changed element.
-/

namespace MerlionKernel.Rust

universe u v

variable {α : Type u} {β : Type v} {p : α → Bool} {f : α → α}

/-- The vector with its first element that satisfies `p`, if there is one, changed by `f`. -/
def modifyFirst (p : α → Bool) (f : α → α) : List α → List α
  | [] => []
  | x :: xs => if p x then f x :: xs else x :: modifyFirst p f xs

/-- Whatever `f` leaves alone is left alone everywhere. -/
theorem map_modifyFirst {g : α → β} (h : ∀ x, g (f x) = g x) (xs : List α) :
    (modifyFirst p f xs).map g = xs.map g := by
  induction xs with
  | nil => rfl
  | cons x xs ih =>
    unfold modifyFirst
    split
    · rw [List.map_cons, List.map_cons, h]
    · rw [List.map_cons, List.map_cons, ih]

@[simp] theorem length_modifyFirst (xs : List α) : (modifyFirst p f xs).length = xs.length := by
  induction xs with
  | nil => rfl
  | cons x xs ih =>
    unfold modifyFirst
    split
    · rfl
    · rw [List.length_cons, List.length_cons, ih]

/-- The first match of `p` afterwards is the changed one. -/
theorem find?_modifyFirst_self (h : ∀ x, p x = true → p (f x) = true) (xs : List α) :
    (modifyFirst p f xs).find? p = (xs.find? p).map f := by
  induction xs with
  | nil => rfl
  | cons x xs ih =>
    unfold modifyFirst
    split
    · rename_i hx
      rw [List.find?_cons_of_pos (h x hx), List.find?_cons_of_pos hx]
      rfl
    · rename_i hx
      rw [List.find?_cons_of_neg hx, List.find?_cons_of_neg hx, ih]

/-- The first match of a predicate that excludes `p` is as before. -/
theorem find?_modifyFirst_of_disjoint {q : α → Bool} (h : ∀ x, p x = true → q x = false)
    (h' : ∀ x, p x = true → q (f x) = false) (xs : List α) :
    (modifyFirst p f xs).find? q = xs.find? q := by
  induction xs with
  | nil => rfl
  | cons x xs ih =>
    unfold modifyFirst
    split
    · rename_i hx
      rw [List.find?_cons_of_neg (by simp [h' x hx]), List.find?_cons_of_neg (by simp [h x hx])]
    · rw [List.find?_cons, List.find?_cons, ih]

/-- When a key tells the elements apart, the first match is the only one. -/
theorem modifyFirst_eq_map {g : α → β} [DecidableEq β] {b : β} {xs : List α}
    (hnodup : (xs.map g).Nodup) :
    modifyFirst (fun x => g x = b) f xs = xs.map fun x => if g x = b then f x else x := by
  induction xs with
  | nil => rfl
  | cons x xs ih =>
    rw [List.map_cons, List.nodup_cons] at hnodup
    unfold modifyFirst
    by_cases hx : g x = b
    · -- No later element has the key.
      have hrest : (xs.map fun x => if g x = b then f x else x) = xs := by
        refine (List.map_congr_left fun y hy => if_neg fun hkey => ?_).trans (List.map_id' xs)
        exact hnodup.1 (by rw [hx, ← hkey]; exact List.mem_map_of_mem hy)
      rw [if_pos (by simpa using hx), List.map_cons, if_pos hx, hrest]
    · rw [if_neg (by simpa using hx), List.map_cons, if_neg hx, ih hnodup.2]

/-- Keys stay different when an element with a new key is added at the end. -/
theorem nodup_map_concat {g : α → β} {xs : List α} {a : α} (h : (xs.map g).Nodup)
    (hnew : ∀ x ∈ xs, g x ≠ g a) : ((xs ++ [a]).map g).Nodup := by
  rw [List.map_append, List.map_singleton, List.nodup_append]
  refine ⟨h, List.nodup_singleton _, ?_⟩
  intro b hb c hc
  obtain ⟨x, hx, rfl⟩ := List.mem_map.mp hb
  rw [List.mem_singleton.mp hc]
  exact hnew x hx

/-- Without a match nothing changes. -/
theorem modifyFirst_of_find?_eq_none {xs : List α}
    (h : xs.find? p = none) : modifyFirst p f xs = xs := by
  induction xs with
  | nil => rfl
  | cons x xs ih =>
    rw [List.find?_cons] at h
    cases hx : p x with
    | true => simp [hx] at h
    | false =>
      rw [hx] at h
      rw [modifyFirst, if_neg (by simp [hx]), ih h]

/-- The first element that satisfies `p` after its change, and the vector with it. -/
def changeFirst (p : α → Bool) (f : α → Exec α) : List α → Exec (Option α × List α)
  | [] => return (none, [])
  | x :: xs =>
    if p x then do
      let y ← f x
      return (some y, y :: xs)
    else do
      let (found, xs') ← changeFirst p f xs
      return (found, x :: xs')

/-- A change that does not stop is made to the first match. -/
theorem changeFirst_eq_ok {f : α → Exec α} {g : α → α} {xs : List α}
    (h : ∀ x ∈ xs, f x = .ok (g x)) :
    changeFirst p f xs = .ok ((xs.find? p).map g, modifyFirst p g xs) := by
  induction xs with
  | nil => rfl
  | cons x xs ih =>
    rw [List.forall_mem_cons] at h
    rw [changeFirst, modifyFirst]
    by_cases hx : p x = true
    · rw [if_pos hx, if_pos hx, h.1, List.find?_cons_of_pos hx]
      rfl
    · rw [if_neg hx, if_neg hx, ih h.2, List.find?_cons_of_neg hx]
      rfl

/-- What the change keeps where it is made holds everywhere afterwards. -/
theorem forall_mem_modifyFirst_of {q : α → Prop} {xs : List α} (h : ∀ x ∈ xs, q x)
    (hf : ∀ x ∈ xs, p x = true → q (f x)) : ∀ x ∈ modifyFirst p f xs, q x := by
  induction xs with
  | nil => exact h
  | cons x xs ih =>
    rw [List.forall_mem_cons] at h hf
    unfold modifyFirst
    split
    · rename_i hx
      exact List.forall_mem_cons.mpr ⟨hf.1 hx, h.2⟩
    · exact List.forall_mem_cons.mpr ⟨h.1, ih h.2 hf.2⟩

/-- What the change keeps holds everywhere afterwards. -/
theorem forall_mem_modifyFirst {q : α → Prop} {xs : List α} (h : ∀ x ∈ xs, q x)
    (hf : ∀ x ∈ xs, q (f x)) : ∀ x ∈ modifyFirst p f xs, q x :=
  forall_mem_modifyFirst_of h fun x hx _ => hf x hx

/-- A search through a list in some order: nothing that comes before what it finds has a value. -/
theorem exists_of_findSome?_pairwise {R : α → α → Prop} {l : List α} {f : α → Option β} {b : β}
    (hl : l.Pairwise R) (h : l.findSome? f = some b) :
    ∃ a ∈ l, f a = some b ∧ ∀ x ∈ l, x ≠ a → ¬ R a x → f x = none := by
  obtain ⟨l₁, a, l₂, rfl, ha, hbefore⟩ := List.findSome?_eq_some_iff.mp h
  refine ⟨a, List.mem_append_right _ List.mem_cons_self, ha, fun x hx hne hR => ?_⟩
  rcases List.mem_append.mp hx with hx | hx
  · exact hbefore x hx
  · rcases List.mem_cons.mp hx with rfl | hx
    · exact (hne rfl).elim
    · exact (hR (List.rel_of_pairwise_cons (List.pairwise_append.mp hl).2.1 hx)).elim

/-- The index that is found is the one of the element that is found. -/
theorem find?_of_findIdx? {xs : List α} {i : Nat} (h : xs.findIdx? p = some i) :
    ∃ x, xs[i]? = some x ∧ xs.find? p = some x ∧ p x = true := by
  obtain ⟨hi, hp, hbefore⟩ := List.findIdx?_eq_some_iff_getElem.mp h
  refine ⟨xs[i], List.getElem?_eq_getElem hi, ?_, hp⟩
  exact List.find?_eq_some_iff_getElem.mpr ⟨hp, i, hi, rfl, fun j hj => by simpa using hbefore j hj⟩

end MerlionKernel.Rust
