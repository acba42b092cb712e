import MerlionKernel.Rust.Exec

/-!
# Tables stored as a vector of rows

Bounds-checked access to a `Vec<Vec<_>>`, and the frame rule for writing one cell.
-/

namespace MerlionKernel.Rust

universe u

variable {α : Type u} {t : List (List α)} {rows cols : Nat}

/-- `t[i][j]`. -/
def cell (t : List (List α)) (i j : Nat) : Exec α := do
  let row ← index t i
  index row j

/-- `t[i][j] = a`. -/
def setCell (t : List (List α)) (i j : Nat) (a : α) : Exec (List (List α)) := do
  let row ← index t i
  let row ← store row j a
  store t i row

/-- The table has `rows` rows of `cols` cells. -/
structure Shape (t : List (List α)) (rows cols : Nat) : Prop where
  length_eq : t.length = rows
  row_length : ∀ row ∈ t, row.length = cols

theorem shape_replicate (rows cols : Nat) (a : α) :
    Shape (List.replicate rows (List.replicate cols a)) rows cols where
  length_eq := List.length_replicate
  row_length := fun row hrow => by rw [List.eq_of_mem_replicate hrow, List.length_replicate]

theorem cell_replicate {i j : Nat} (hi : i < rows) (hj : j < cols) (a : α) :
    cell (List.replicate rows (List.replicate cols a)) i j = .ok a := by
  rw [cell, index_eq_ok (by simpa using hi), ok_bind, index_eq_ok (by simpa using hj)]
  simp

theorem setCell_spec (h : Shape t rows cols) {i j : Nat} (hi : i < rows) (hj : j < cols)
    (a : α) :
    Returns (setCell t i j a) fun t' =>
      Shape t' rows cols ∧
        ∀ i' j', cell t' i' j' = if i' = i ∧ j' = j then .ok a else cell t i' j' := by
  have hi' : i < t.length := h.length_eq ▸ hi
  have hj' : j < t[i].length := h.row_length _ (List.getElem_mem hi') ▸ hj
  rw [setCell, index_eq_ok hi', ok_bind, store_eq_ok a hj', ok_bind, store_eq_ok _ hi']
  refine .ok ⟨⟨by rw [List.length_set, h.length_eq], fun row hrow => ?_⟩, fun i' j' => ?_⟩
  · rcases List.mem_or_eq_of_mem_set hrow with hold | rfl
    · exact h.row_length row hold
    · rw [List.length_set, h.row_length _ (List.getElem_mem hi')]
  · by_cases hrow : i' = i
    · subst hrow
      rw [cell, index_eq_ok_iff.mpr (List.getElem?_set_self hi'), ok_bind, cell,
        index_eq_ok hi', ok_bind]
      by_cases hcol : j' = j
      · subst hcol
        rw [if_pos ⟨rfl, rfl⟩, index_eq_ok_iff.mpr (List.getElem?_set_self hj')]
      · rw [if_neg fun hboth => hcol hboth.2, index, index, List.getElem?_set_ne (Ne.symm hcol)]
    · rw [if_neg fun hboth => hrow hboth.1, cell, cell, index, index,
        List.getElem?_set_ne (Ne.symm hrow)]

end MerlionKernel.Rust
