import MerlionKernel.Diff.Minimal

/-!
# Applying a difference

`apply_patch` writes the lines that a script keeps or inserts, each with a newline behind
it. `split_lines` drops one newline at the end of a text and drops nothing where there is
none, so a text that ends in a newline and the same text without it have the same lines.
Applying the difference of two texts gives the new one back exactly when it is empty or
ends in a newline; any other text comes back with a newline added.
-/

namespace MerlionKernel.Diff

open Rust

/-- One round of the loop of `apply_patch`. -/
def patchLine (out : String) : DiffOp → String
  | .equal line | .insert line => (out ++ line).push '\n'
  | .delete _ => out

/-- `apply_patch`. The text to be patched is not looked at. -/
def applyPatch (_original : String) (ops : List DiffOp) : String := ops.foldl patchLine ""

/-! ### The lines of a text -/

/-- Lines written one after the other, each with its newline. -/
def written (lines : List String) : List Char := lines.flatMap fun line => line.toList ++ ['\n']

theorem toList_applyPatch (original : String) (ops : List DiffOp) :
    (applyPatch original ops).toList = written (newLines ops) := by
  have hfold : ∀ out : String,
      (ops.foldl patchLine out).toList = out.toList ++ written (newLines ops) := by
    induction ops with
    | nil => exact fun out => (List.append_nil _).symm
    | cons op ops ih =>
      intro out
      rw [List.foldl_cons, ih]
      cases op <;> simp [patchLine, written, newLines, DiffOp.newLine]
  exact hfold ""

/-- Writing the pieces between the newlines of a text adds one newline to it. -/
theorem written_splitOn (text : List Char) :
    written ((text.splitOn '\n').map String.ofList) = text ++ ['\n'] := by
  have hjoin : ∀ pieces : List (List Char), pieces ≠ [] →
      written (pieces.map String.ofList) = ['\n'].intercalate pieces ++ ['\n'] := by
    intro pieces hne
    induction pieces with
    | nil => exact absurd rfl hne
    | cons piece pieces ih =>
      cases pieces with
      | nil => simp [written]
      | cons next pieces =>
        rw [List.intercalate_cons_cons, List.append_assoc, ← ih (List.cons_ne_nil _ _)]
        simp [written]
  rw [hjoin _ (List.splitOn_ne_nil _ _), List.intercalate_splitOn]

/-- What the lines of a text are written as: the text itself, closed by a newline if it has
none. -/
theorem written_splitLines (text : String) :
    written (splitLines text) =
      if text.toList = [] then [] else stripNewline text.toList ++ ['\n'] := by
  unfold splitLines
  split_ifs
  · rfl
  · exact written_splitOn _

theorem written_splitLines_eq_iff (text : String) :
    written (splitLines text) = text.toList ↔
      text = "" ∨ text.toList.getLast? = some '\n' := by
  rw [written_splitLines, ← String.toList_eq_nil_iff]
  by_cases hempty : text.toList = []
  · rw [if_pos hempty, hempty]
    exact iff_of_true rfl (.inl rfl)
  rw [if_neg hempty, or_iff_right hempty, stripNewline]
  by_cases hlast : text.toList.getLast? = some '\n'
  · rw [if_pos hlast]
    exact iff_of_true (List.dropLast_append_getLast? _ hlast) hlast
  · -- Without a newline at the end nothing was dropped, and one is added.
    rw [if_neg hlast]
    exact iff_of_false (by simp) hlast

/-! ### The round trip -/

/-- `diff_lines` returns on every two texts, and applying its result gives the new text
back exactly when that text is empty or ends in a newline. -/
theorem applyPatch_diffLines_iff (old new : String) :
    (∃ ops, diffLines old new = .ok ops ∧ applyPatch old ops = new) ↔
      new = "" ∨ new.toList.getLast? = some '\n' := by
  obtain ⟨ops, hdiff, -, hnew, -⟩ := diffLines_minimal old new
  have htext : (applyPatch old ops).toList = written (splitLines new) := by
    rw [toList_applyPatch, hnew]
  rw [← written_splitLines_eq_iff, ← htext, String.toList_inj, hdiff]
  exact ⟨fun ⟨ops', hok, happly⟩ => Except.ok.inj hok ▸ happly, fun happly => ⟨ops, rfl, happly⟩⟩

/-- A text of one line that has no newline comes back with one. -/
theorem applyPatch_adds_newline :
    (diffLines "" "a" >>= fun ops => .ok (applyPatch "" ops)) = .ok "a\n" := by decide

end MerlionKernel.Diff
