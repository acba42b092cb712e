import Mathlib.Data.List.Forall2
import MerlionKernel.Rust.Exec

/-!
# Loops over the elements of a vector

`for x in &mut xs { … }` changes each element on its own, and stops at the first change that
does. The elements before and after a loop that returns are related one by one.
-/

namespace MerlionKernel.Rust

universe u v

variable {α : Type v} {β : Type u}

/-- `for x in &mut xs { f(x) }`. -/
def each (f : β → Exec β) (xs : List β) : Exec (List β) := xs.mapM f

/-- A loop over a vector that returns has called `f` on every element. -/
theorem forall₂_of_mapM {ε : Type} {f : α → Except ε β} {xs : List α} {ys : List β}
    (h : xs.mapM f = .ok ys) : List.Forall₂ (fun x y => f x = .ok y) xs ys := by
  induction xs generalizing ys with
  | nil =>
    rw [List.mapM_nil, pure_eq_ok, Except.ok.injEq] at h
    subst h
    exact .nil
  | cons x xs ih =>
    rw [List.mapM_cons, bind_eq_ok_iff] at h
    obtain ⟨y, hy, h⟩ := h
    obtain ⟨rest, hrest, h⟩ := bind_eq_ok_iff.mp h
    cases h
    exact .cons hy (ih hrest)

/-- A loop that returns has changed every element as `f` does. -/
theorem forall₂_of_each {f : β → Exec β} {xs ys : List β} (h : each f xs = .ok ys) :
    List.Forall₂ (fun x y => f x = .ok y) xs ys :=
  forall₂_of_mapM h

/-- A loop whose changes all return returns, with what they establish. -/
theorem each_returns {f : β → Exec β} {post : β → Prop} {xs : List β}
    (h : ∀ x ∈ xs, Returns (f x) post) : Returns (each f xs) fun ys => ∀ y ∈ ys, post y := by
  induction xs with
  | nil => exact .ok (by simp)
  | cons x xs ih =>
    rw [List.forall_mem_cons] at h
    obtain ⟨y, hy, hpost⟩ := h.1
    obtain ⟨ys, hys, hrest⟩ := ih h.2
    rw [each] at hys ⊢
    rw [List.mapM_cons, hy, ok_bind, hys]
    exact .ok (List.forall_mem_cons.mpr ⟨hpost, hrest⟩)

/-! ### Keeping some of the elements -/

/-- `xs.retain(keep)`. -/
def retain {α : Type} (keep : α → Exec Bool) : List α → Exec (List α)
  | [] => return []
  | x :: xs => do
    let kept ← keep x
    let rest ← retain keep xs
    return if kept then x :: rest else rest

/-- What is left are the elements of which the test holds. -/
theorem of_retain {α : Type} {keep : α → Exec Bool} {p : α → Bool} {xs ys : List α}
    (hkeep : ∀ x b, keep x = .ok b → b = p x) (h : retain keep xs = .ok ys) :
    ys = xs.filter p := by
  induction xs generalizing ys with
  | nil =>
    cases h
    rfl
  | cons x xs ih =>
    obtain ⟨kept, hx, h⟩ := bind_eq_ok_iff.mp h
    obtain ⟨rest, hrest, h⟩ := bind_eq_ok_iff.mp h
    cases h
    rw [hkeep x kept hx, ih hrest, List.filter_cons]

/-! ### Checking every element -/

/-- `for (i, x) in xs.iter().enumerate()`, counted from `i`, with a check that returns from the
function when it fails. -/
def checkEnumerated {ε : Type} (check : Nat → α → Except ε Unit) :
    Nat → List α → Except ε Unit
  | _, [] => .ok ()
  | i, x :: rest => do
    check i x
    checkEnumerated check (i + 1) rest

/-- A loop of checks that ends has checked every element. -/
theorem of_checkEnumerated {ε : Type} {check : Nat → α → Except ε Unit} {i : Nat} {xs : List α}
    (h : checkEnumerated check i xs = .ok ()) {j : Nat} {x : α} (hj : xs[j]? = some x) :
    check (i + j) x = .ok () := by
  induction xs generalizing i j with
  | nil => simp at hj
  | cons first rest ih =>
    rw [checkEnumerated] at h
    obtain ⟨⟨⟩, hfirst, hrest⟩ := bind_eq_ok_iff.mp h
    cases j with
    | zero =>
      obtain rfl : first = x := by simpa using hj
      exact hfirst
    | succ j =>
      have hat : rest[j]? = some x := by simpa using hj
      have hchecked := ih hrest hat
      rwa [Nat.add_right_comm] at hchecked

/-- Whatever differs from the last element has an element after it. -/
theorem succ_lt_of_ne_last {xs : List α} {i : Nat} {x last : α} (hi : xs[i]? = some x)
    (hlast : xs.getLast? = some last) (hne : x ≠ last) : i + 1 < xs.length := by
  have hlt : i < xs.length := (List.getElem?_eq_some_iff.mp hi).1
  by_contra hend
  obtain rfl : i = xs.length - 1 := by omega
  rw [List.getLast?_eq_getElem?, hi] at hlast
  exact hne (Option.some.inj hlast)

end MerlionKernel.Rust
