import MerlionKernel.Rust.Grid

/-!
# Line differences

The line-level difference of `diff.rs`: the texts are split into lines, a table of
common-subsequence lengths is filled row by row, and a walk back through the table reads
off the operations.
-/

namespace MerlionKernel.Diff

open Rust

/-- `DiffOp`: a line that stays, is inserted or is deleted. -/
inductive DiffOp
  | equal (line : String)
  | insert (line : String)
  | delete (line : String)

/-- `text.strip_suffix('\n').unwrap_or(text)`, on the characters of the text. -/
def stripNewline (text : List Char) : List Char :=
  if text.getLast? = some '\n' then text.dropLast else text

/-- `split_lines`. -/
def splitLines (text : String) : List String :=
  if text.toList = [] then []
  else ((stripNewline text.toList).splitOn '\n').map String.ofList

/-! ### The table -/

/-- The value of cell `(i, j)` computed from its neighbours. -/
def cellValue (old new : List String) (t : List (List Nat)) (i j : Nat) : Exec Nat := do
  let a ← index old (i - 1)
  let b ← index new (j - 1)
  if a = b then
    let diagonal ← cell t (i - 1) (j - 1)
    return diagonal + 1
  else
    let above ← cell t (i - 1) j
    let left ← cell t i (j - 1)
    return max above left

/-- The body of the inner loop of `lcs_table`. -/
def fillCell (old new : List String) (i : Nat) (t : List (List Nat)) (j : Nat) :
    Exec (List (List Nat)) := do
  let v ← cellValue old new t i j
  setCell t i j v

/-- The body of the outer loop of `lcs_table`. -/
def fillRow (old new : List String) (t : List (List Nat)) (i : Nat) : Exec (List (List Nat)) :=
  (List.range' 1 new.length).foldlM (fillCell old new i) t

/-- `lcs_table`. -/
def lcsTable (old new : List String) : Exec (List (List Nat)) :=
  (List.range' 1 old.length).foldlM (fillRow old new)
    (List.replicate (old.length + 1) (List.replicate (new.length + 1) 0))

/-! ### The walk back -/

/-- `i > 0 && j > 0 && old[i - 1] == new[j - 1]`. -/
def sameLine (old new : List String) (i j : Nat) : Exec Bool := do
  if 0 < i ∧ 0 < j then
    let a ← index old (i - 1)
    let b ← index new (j - 1)
    return a = b
  else return false

/-- `j > 0 && (i == 0 || t[i][j - 1] >= t[i - 1][j])`. -/
def prefersInsert (t : List (List Nat)) (i j : Nat) : Exec Bool := do
  if 0 < j then
    if i = 0 then return true
    else
      let left ← cell t i (j - 1)
      let above ← cell t (i - 1) j
      return above ≤ left
  else return false

/-- The local variables of `backtrack`. -/
structure Walk where
  i : Nat
  j : Nat
  ops : List DiffOp

/-- One round of `backtrack`. -/
def backtrackRound (t : List (List Nat)) (old new : List String) (s : Walk) :
    Exec (ControlFlow Walk (List DiffOp)) := do
  if 0 < s.i ∨ 0 < s.j then
    if ← sameLine old new s.i s.j then
      let line ← index old (s.i - 1)
      return .again ⟨s.i - 1, s.j - 1, s.ops ++ [.equal line]⟩
    else if ← prefersInsert t s.i s.j then
      let line ← index new (s.j - 1)
      return .again ⟨s.i, s.j - 1, s.ops ++ [.insert line]⟩
    else
      let line ← index old (s.i - 1)
      return .again ⟨s.i - 1, s.j, s.ops ++ [.delete line]⟩
  else return .stop s.ops.reverse

/-- `backtrack`. -/
def backtrack (t : List (List Nat)) (old new : List String) : Exec (List DiffOp) :=
  loop (backtrackRound t old new) (old.length + new.length + 1) ⟨old.length, new.length, []⟩

/-- `diff_lines`. -/
def diffLines (old new : String) : Exec (List DiffOp) := do
  let t ← lcsTable (splitLines old) (splitLines new)
  backtrack t (splitLines old) (splitLines new)

end MerlionKernel.Diff
