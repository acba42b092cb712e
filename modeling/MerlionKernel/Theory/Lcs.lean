import Mathlib.Order.Nat

/-!
# Lengths of longest common subsequences

`IsLcsLength n xs ys` says that `n` is the length of a longest list that is a subsequence
of both `xs` and `ys`. The recurrence of the usual dynamic program is stated at the end of
the lists, where a table over initial parts reads it.
-/

namespace MerlionKernel.Theory

universe u

variable {α : Type u} {xs ys zs : List α} {a b : α} {m n : Nat}

/-- `n` is the length of a longest common subsequence of `xs` and `ys`. -/
structure IsLcsLength (n : Nat) (xs ys : List α) : Prop where
  attained : ∃ zs : List α, zs.Sublist xs ∧ zs.Sublist ys ∧ zs.length = n
  bound : ∀ zs : List α, zs.Sublist xs → zs.Sublist ys → zs.length ≤ n

/-- A subsequence of a list with a last element uses that element last or not at all. -/
theorem sublist_concat_iff :
    zs.Sublist (xs ++ [a]) ↔ zs.Sublist xs ∨ ∃ ws, zs = ws ++ [a] ∧ ws.Sublist xs := by
  rw [List.sublist_append_iff]
  constructor
  · rintro ⟨ws, last, rfl, hws, hlast⟩
    obtain rfl | rfl : last = [] ∨ last = [a] := by
      simpa [List.sublist_cons_iff] using hlast
    · exact .inl (by rwa [List.append_nil])
    · exact .inr ⟨ws, rfl, hws⟩
  · rintro (hzs | ⟨ws, rfl, hws⟩)
    · exact ⟨zs, [], by simp, hzs, List.nil_sublist _⟩
    · exact ⟨ws, [a], rfl, hws, List.Sublist.refl _⟩

namespace IsLcsLength

theorem unique (hm : IsLcsLength m xs ys) (hn : IsLcsLength n xs ys) : m = n := by
  obtain ⟨zs, hx, hy, rfl⟩ := hm.attained
  obtain ⟨ws, hx', hy', rfl⟩ := hn.attained
  exact Nat.le_antisymm (hn.bound zs hx hy) (hm.bound ws hx' hy')

theorem symm (h : IsLcsLength n xs ys) : IsLcsLength n ys xs where
  attained := by
    obtain ⟨zs, hx, hy, hlen⟩ := h.attained
    exact ⟨zs, hy, hx, hlen⟩
  bound := fun zs hy hx => h.bound zs hx hy

theorem nil_left (ys : List α) : IsLcsLength 0 [] ys where
  attained := ⟨[], List.Sublist.refl _, List.nil_sublist _, rfl⟩
  bound := fun zs hx _ => by simp [List.sublist_nil.mp hx]

theorem nil_right (xs : List α) : IsLcsLength 0 xs [] := (nil_left xs).symm

/-- Lists with the same last element: it can always be used. -/
theorem concat_self (h : IsLcsLength n xs ys) (a : α) :
    IsLcsLength (n + 1) (xs ++ [a]) (ys ++ [a]) where
  attained := by
    obtain ⟨zs, hx, hy, hlen⟩ := h.attained
    exact ⟨zs ++ [a], hx.append_right [a], hy.append_right [a], by simp [hlen]⟩
  bound := by
    intro zs hx hy
    rcases sublist_concat_iff.mp hx with hx' | ⟨ws, rfl, hws⟩
    · rcases sublist_concat_iff.mp hy with hy' | ⟨ws, rfl, hws⟩
      · exact Nat.le_succ_of_le (h.bound zs hx' hy')
      · rw [List.length_append]
        exact Nat.succ_le_succ (h.bound ws ((List.sublist_append_left ws [a]).trans hx') hws)
    · have hws' : ws.Sublist ys := by
        rcases sublist_concat_iff.mp hy with hy' | ⟨vs, heq, hvs⟩
        · exact (List.sublist_append_left ws [a]).trans hy'
        · rwa [List.append_cancel_right heq]
      rw [List.length_append]
      exact Nat.succ_le_succ (h.bound ws hws hws')

/-- Lists with different last elements: one of the two is not used. -/
theorem concat_of_ne (hab : a ≠ b) (hm : IsLcsLength m xs (ys ++ [b]))
    (hn : IsLcsLength n (xs ++ [a]) ys) : IsLcsLength (max m n) (xs ++ [a]) (ys ++ [b]) where
  attained := by
    rcases Nat.le_total m n with hle | hle
    · obtain ⟨zs, hx, hy, hlen⟩ := hn.attained
      rw [Nat.max_eq_right hle]
      exact ⟨zs, hx, hy.trans (List.sublist_append_left ys [b]), hlen⟩
    · obtain ⟨zs, hx, hy, hlen⟩ := hm.attained
      rw [Nat.max_eq_left hle]
      exact ⟨zs, hx.trans (List.sublist_append_left xs [a]), hy, hlen⟩
  bound := by
    intro zs hx hy
    rcases sublist_concat_iff.mp hx with hx' | ⟨ws, rfl, -⟩
    · exact le_trans (hm.bound zs hx' hy) (Nat.le_max_left m n)
    · rcases sublist_concat_iff.mp hy with hy' | ⟨vs, heq, -⟩
      · exact le_trans (hn.bound _ hx hy') (Nat.le_max_right m n)
      · exact absurd (List.append_inj_right' heq rfl) (by simpa using hab)

end IsLcsLength

end MerlionKernel.Theory
