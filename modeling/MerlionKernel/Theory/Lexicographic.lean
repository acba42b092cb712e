import Mathlib.Data.List.Lex
import Mathlib.Order.Nat

/-!
# Initial parts in the lexicographic order

The lists that start with a given list form one block of the lexicographic order, which
begins at that list.
-/

namespace MerlionKernel.Theory

universe u

variable {α : Type u} [LinearOrder α] {p a b : List α}

theorem le_of_isPrefix (h : p <+: a) : p ≤ a := by
  induction p generalizing a with
  | nil => exact not_lt.mp (List.not_lt_nil a)
  | cons x p ih =>
    cases a with
    | nil => simp at h
    | cons y a =>
      obtain ⟨rfl, hp⟩ := List.cons_prefix_cons.mp h
      exact not_lt.mp (mt List.cons_lt_cons_iff.mp (by simpa using ih hp))

theorem isPrefix_of_le_of_le (hpa : p ≤ a) (hab : a ≤ b) (h : p <+: b) : p <+: a := by
  induction p generalizing a b with
  | nil => exact List.nil_prefix
  | cons x p ih =>
    cases a with
    | nil => exact absurd hpa (not_le.mpr (List.nil_lt_cons x p))
    | cons y a =>
      cases b with
      | nil => simp at h
      | cons z b =>
        obtain ⟨rfl, hp⟩ := List.cons_prefix_cons.mp h
        rw [← not_lt, List.cons_lt_cons_iff] at hpa hab
        push Not at hpa hab
        -- The heads are squeezed between equal ones.
        obtain rfl : x = y := le_antisymm hpa.1 hab.1
        exact List.cons_prefix_cons.mpr ⟨rfl, ih (hpa.2 rfl) (hab.2 rfl) hp⟩

end MerlionKernel.Theory
