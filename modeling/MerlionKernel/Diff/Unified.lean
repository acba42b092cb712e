import Mathlib.Data.Nat.Digits.Lemmas
import MerlionKernel.Diff.Minimal
import MerlionKernel.Theory.Windows

/-!
# The unified format

`format_unified` opens a window of context around every insertion and deletion, merges
windows that overlap or touch into hunks, and writes each hunk behind a header. The
windows are cut at both ends of the script; at the low end by a saturating subtraction, at
the high end by an addition that is not checked, so the context must be small enough for
the sum to fit a machine word.

What is printed is stated over `Hunk`, a nonempty range of operations. A header gives the
place of the first line of the hunk in each of the two texts, counted from one, and the
number of lines that the hunk takes from each.
-/

namespace MerlionKernel.Diff

open Rust Theory

/-! ### The function -/

/-- One round of the loop of `push_usize`, on the number left and the digits pushed. -/
def pushRound (s : Nat × List Char) : Exec (ControlFlow (Nat × List Char) (List Char)) :=
  if 0 < s.1 then return .again (s.1 / 10, s.2 ++ [Char.ofNat (48 + s.1 % 10)])
  else return .stop s.2

/-- `push_usize`: the digits come lowest first, and the part of the buffer that they take
is reversed. -/
def pushUsize (buf : String) (n : Nat) : Exec String := do
  if n = 0 then return buf.push '0'
  else
    let pushed ← loop pushRound (n + 1) (n, [])
    return buf ++ String.ofList pushed.reverse

/-- The indices of the insertions and deletions. -/
def changesOf (ops : List DiffOp) : List Nat :=
  (ops.zipIdx.filter fun p => p.1.isChange).map Prod.snd

/-- The last operation of the window around a change. -/
def windowEnd (ops : List DiffOp) (contextLines ci : Nat) : Exec Nat := do
  let reach ← u64 (ci + contextLines)
  let last ← sub ops.length 1
  return min reach last

/-- The hunks closed so far, and the one that is open. -/
structure Merge where
  hunks : List (Nat × Nat)
  hs : Nat
  he : Nat

/-- One round of the loop that merges the windows. -/
def mergeRound (ops : List DiffOp) (contextLines : Nat) (s : Merge) (ci : Nat) : Exec Merge := do
  let cs := ci - contextLines
  let ce ← windowEnd ops contextLines ci
  if cs ≤ s.he + 1 then return { s with he := ce }
  else return ⟨s.hunks ++ [(s.hs, s.he)], cs, ce⟩

/-- The hunks around the first change and the others. -/
def hunksOf (ops : List DiffOp) (contextLines first : Nat) (rest : List Nat) :
    Exec (List (Nat × Nat)) := do
  let he ← windowEnd ops contextLines first
  let s ← rest.foldlM (mergeRound ops contextLines) ⟨[], first - contextLines, he⟩
  return s.hunks ++ [(s.hs, s.he)]

/-- Count one operation for the old and the new text. -/
def countOp (n : Nat × Nat) : DiffOp → Nat × Nat
  | .equal _ => (n.1 + 1, n.2 + 1)
  | .delete _ => (n.1 + 1, n.2)
  | .insert _ => (n.1, n.2 + 1)

/-- Write one operation of a hunk. -/
def pushOp (out : String) : DiffOp → String
  | .equal line => (out.push ' ' ++ line).push '\n'
  | .insert line => (out.push '+' ++ line).push '\n'
  | .delete line => (out.push '-' ++ line).push '\n'

/-- Write one hunk. -/
def pushHunk (ops : List DiffOp) (out : String) (h : Nat × Nat) : Exec String := do
  let before ← slice ops 0 h.1
  let (os, ns) := before.foldl countOp (1, 1)
  let inside ← slice ops h.1 (h.2 + 1)
  let (oc, nc) := inside.foldl countOp (0, 0)
  let out ← pushUsize (out ++ "@@ -") os
  let out ← pushUsize (out.push ',') oc
  let out ← pushUsize (out ++ " +") ns
  let out ← pushUsize (out.push ',') nc
  return inside.foldl pushOp (out ++ " @@\n")

/-- `format_unified`. -/
def formatUnified (ops : List DiffOp) (contextLines : Nat) : Exec String := do
  match changesOf ops with
  | [] => return ""
  | first :: rest =>
    let hunks ← hunksOf ops contextLines first rest
    hunks.foldlM (pushHunk ops) ""

/-! ### Changes and windows -/

section Windows

variable {ops : List DiffOp} {contextLines : Nat}

/-- The operation at the index is an insertion or a deletion. -/
def ChangeAt (ops : List DiffOp) (i : Nat) : Prop := ∃ op, ops[i]? = some op ∧ op.isChange = true

/-- The operation at the index lies within the context of some change. -/
def NearChange (ops : List DiffOp) (contextLines i : Nat) : Prop :=
  ∃ c, ChangeAt ops c ∧ c ≤ i + contextLines ∧ i ≤ c + contextLines

theorem mem_changesOf_iff {i : Nat} : i ∈ changesOf ops ↔ ChangeAt ops i := by
  simp [changesOf, ChangeAt, List.mem_zipIdx_iff_getElem?]

theorem ChangeAt.lt {i : Nat} (h : ChangeAt ops i) : i < ops.length := by
  obtain ⟨op, hop, -⟩ := h
  exact (List.getElem?_eq_some_iff.mp hop).1

theorem pairwise_changesOf (ops : List DiffOp) : (changesOf ops).Pairwise (· < ·) := by
  have hsub : (changesOf ops).Sublist (ops.zipIdx.map Prod.snd) := List.filter_sublist.map _
  rw [List.zipIdx_map_snd] at hsub
  exact (List.pairwise_lt_range' 1).sublist hsub

/-- The window around a change. -/
def windowOf (ops : List DiffOp) (contextLines c : Nat) : Nat × Nat :=
  (c - contextLines, min (c + contextLines) (ops.length - 1))

theorem windowEnd_eq {c : Nat} (h : ChangeAt ops c) (hfit : c + contextLines < 2 ^ 64) :
    windowEnd ops contextLines c = .ok (windowOf ops contextLines c).2 := by
  have hlt := h.lt
  rw [windowEnd, u64_eq_ok hfit, ok_bind, sub_eq_ok (by omega), ok_bind]
  rfl

theorem windowOf_valid {c : Nat} (h : ChangeAt ops c) :
    (windowOf ops contextLines c).1 ≤ (windowOf ops contextLines c).2 := by
  have hlt := h.lt
  dsimp only [windowOf]
  omega

theorem ascending_windowOf (ops : List DiffOp) (contextLines : Nat) {c c' : Nat} (h : c < c') :
    Ascending (windowOf ops contextLines c) (windowOf ops contextLines c') := by
  dsimp only [Ascending, windowOf]
  omega

theorem mem_windowOf_iff {c i : Nat} (hi : i < ops.length) :
    i ∈ Set.Icc (windowOf ops contextLines c).1 (windowOf ops contextLines c).2 ↔
      c ≤ i + contextLines ∧ i ≤ c + contextLines := by
  simp only [windowOf, Set.mem_Icc]
  omega

/-- The loop merges the windows of the changes behind the open hunk. -/
theorem foldlM_mergeRound {rest : List Nat} (hrest : ∀ c ∈ rest, ChangeAt ops c)
    (hfit : ∀ c ∈ rest, c + contextLines < 2 ^ 64) (hunks : List (Nat × Nat)) (hs he : Nat) :
    Returns (rest.foldlM (mergeRound ops contextLines) ⟨hunks, hs, he⟩) fun s =>
      s.hunks ++ [(s.hs, s.he)] =
        hunks ++ mergeFrom (hs, he) (rest.map (windowOf ops contextLines)) := by
  induction rest generalizing hunks hs he with
  | nil => exact .ok rfl
  | cons c rest ih =>
    obtain ⟨hc, hrest⟩ := List.forall_mem_cons.mp hrest
    obtain ⟨hcfit, hfit⟩ := List.forall_mem_cons.mp hfit
    rw [List.foldlM_cons, mergeRound, windowEnd_eq hc hcfit, ok_bind, List.map_cons, mergeFrom]
    dsimp only
    by_cases hjoin : c - contextLines ≤ he + 1
    · rw [if_pos hjoin, if_pos (show (windowOf ops contextLines c).1 ≤ he + 1 from hjoin)]
      exact ih hrest hfit hunks hs _
    · rw [if_neg hjoin, if_neg (show ¬ (windowOf ops contextLines c).1 ≤ he + 1 from hjoin)]
      refine (ih hrest hfit (hunks ++ [(hs, he)]) _ _).mono fun s heq => ?_
      rw [heq, List.append_assoc]
      rfl

theorem hunksOf_eq {first : Nat} {rest : List Nat}
    (hchange : ∀ c ∈ first :: rest, ChangeAt ops c)
    (hfit : ∀ c ∈ first :: rest, c + contextLines < 2 ^ 64) :
    hunksOf ops contextLines first rest =
      .ok (merge ((first :: rest).map (windowOf ops contextLines))) := by
  obtain ⟨hfirst, hrest⟩ := List.forall_mem_cons.mp hchange
  obtain ⟨hfirstFit, hrestFit⟩ := List.forall_mem_cons.mp hfit
  obtain ⟨s, hs, heq⟩ := foldlM_mergeRound hrest hrestFit [] (first - contextLines)
    (windowOf ops contextLines first).2
  rw [hunksOf, windowEnd_eq hfirst hfirstFit, ok_bind, hs, ok_bind, heq]
  rfl

variable (ops contextLines)

/-- The windows of all changes, in order. -/
def windows : List (Nat × Nat) := (changesOf ops).map (windowOf ops contextLines)

theorem ascending_windows : (windows ops contextLines).Pairwise Ascending :=
  (pairwise_changesOf ops).map _ fun _ _ h => ascending_windowOf ops contextLines h

theorem valid_windows : ∀ w ∈ windows ops contextLines, w.1 ≤ w.2 :=
  List.forall_mem_map.mpr fun _ hc => windowOf_valid (mem_changesOf_iff.mp hc)

/-- The merged windows contain what lies in the window of some change. -/
theorem covered_windows_iff (i : Nat) :
    (∃ p ∈ merge (windows ops contextLines), i ∈ Set.Icc p.1 p.2) ↔
      ∃ c, ChangeAt ops c ∧
        i ∈ Set.Icc (windowOf ops contextLines c).1 (windowOf ops contextLines c).2 := by
  rw [covered_merge_iff (ascending_windows ops contextLines)]
  simp only [windows, List.mem_map, exists_exists_and_eq_and, mem_changesOf_iff]

end Windows

/-! ### Hunks -/

/-- The decimal numeral of a number, the most significant digit first. -/
def decimal (n : Nat) : List Nat := if n = 0 then [0] else (Nat.digits 10 n).reverse

/-- A nonempty range of the operations of a script. -/
structure Hunk (ops : List DiffOp) where
  start : Nat
  stop : Nat
  start_le : start ≤ stop
  stop_lt : stop < ops.length

namespace Hunk

variable {ops : List DiffOp}

/-- The first and the last index. -/
def bounds (h : Hunk ops) : Nat × Nat := (h.start, h.stop)

instance : CanLift (Nat × Nat) (Hunk ops) bounds fun p => p.1 ≤ p.2 ∧ p.2 < ops.length where
  prf p hp := ⟨⟨p.1, p.2, hp.1, hp.2⟩, rfl⟩

/-- The operations before the hunk. -/
def before (h : Hunk ops) : List DiffOp := ops.take h.start

/-- The operations of the hunk. -/
def inside (h : Hunk ops) : List DiffOp := (ops.drop h.start).take (h.stop + 1 - h.start)

/-- The numbers of a header, for one of the two texts: one more than the number of lines
before the hunk, and the number of lines in it. -/
def range (h : Hunk ops) (lines : List DiffOp → List String) : List Char :=
  ((decimal ((lines h.before).length + 1)).map Nat.digitChar) ++ ',' ::
    ((decimal (lines h.inside).length).map Nat.digitChar)

/-- The header `@@ -o,c +n,c @@`. -/
def header (h : Hunk ops) : List Char :=
  "@@ -".toList ++ h.range oldLines ++ " +".toList ++ h.range newLines ++ " @@\n".toList

/-- One line of the body. -/
def line : DiffOp → List Char
  | .equal line => ' ' :: (line.toList ++ ['\n'])
  | .insert line => '+' :: (line.toList ++ ['\n'])
  | .delete line => '-' :: (line.toList ++ ['\n'])

/-- The text of a hunk. -/
def text (h : Hunk ops) : List Char := h.header ++ h.inside.flatMap line

end Hunk

/-! ### The text -/

section Text

theorem loop_pushRound (n : Nat) :
    loop pushRound (n + 1) (n, []) = .ok ((Nat.digits 10 n).map Nat.digitChar) := by
  refine Returns.eq_ok (loop_returns
    (fun s => s.2 ++ (Nat.digits 10 s.1).map Nat.digitChar = (Nat.digits 10 n).map Nat.digitChar)
    (fun s => s.1) ?_ rfl (Nat.lt_succ_self _))
  rintro ⟨m, pushed⟩ hinv
  unfold pushRound
  dsimp only at hinv ⊢
  by_cases hm : 0 < m
  · rw [if_pos hm]
    refine .ok ⟨?_, Nat.div_lt_self hm (by decide)⟩
    have hdigit : Char.ofNat (48 + m % 10) = Nat.digitChar (m % 10) := by
      have hlt := Nat.mod_lt m (show 0 < 10 by decide)
      generalize m % 10 = d at hlt
      interval_cases d <;> rfl
    rw [← hinv, Nat.digits_def' (by decide) hm, hdigit, List.map_cons, List.append_assoc]
    rfl
  · rw [if_neg hm]
    obtain rfl := Nat.eq_zero_of_not_pos hm
    rw [Nat.digits_zero, List.map_nil, List.append_nil] at hinv
    exact .ok hinv

/-- `push_usize` appends the decimal numeral. -/
theorem pushUsize_eq (buf : String) (n : Nat) :
    pushUsize buf n = .ok (buf ++ String.ofList ((decimal n).map Nat.digitChar)) := by
  unfold pushUsize decimal
  by_cases hn : n = 0
  · rw [if_pos hn, if_pos hn, pure_eq_ok]
    refine congrArg Except.ok (String.toList_inj.mp ?_)
    simp [Nat.digitChar]
  · rw [if_neg hn, if_neg hn, loop_pushRound, ok_bind, List.map_reverse]
    rfl

theorem foldl_countOp (ops : List DiffOp) (m n : Nat) :
    ops.foldl countOp (m, n) = ((oldLines ops).length + m, (newLines ops).length + n) := by
  induction ops generalizing m n with
  | nil => simp [oldLines, newLines]
  | cons op ops ih =>
    rw [List.foldl_cons]
    cases op <;>
    · rw [countOp, ih]
      simp only [oldLines, newLines, List.flatMap_cons, DiffOp.oldLine, DiffOp.newLine,
        List.length_append, List.length_cons, List.length_nil]
      exact Prod.ext (by omega) (by omega)

theorem toList_foldl_pushOp (ops : List DiffOp) (out : String) :
    (ops.foldl pushOp out).toList = out.toList ++ ops.flatMap Hunk.line := by
  induction ops generalizing out with
  | nil => exact (List.append_nil _).symm
  | cons op ops ih =>
    rw [List.foldl_cons, ih]
    cases op <;> simp [pushOp, Hunk.line]

variable {ops : List DiffOp}

theorem pushHunk_returns (out : String) (h : Hunk ops) :
    Returns (pushHunk ops out h.bounds) fun out' => out'.toList = out.toList ++ h.text := by
  have hlt := h.stop_lt
  have hle := h.start_le
  have hbefore : slice ops 0 h.start = .ok h.before := by
    rw [slice_eq_ok (Nat.zero_le _) (by omega)]
    rfl
  have hinside : slice ops h.start (h.stop + 1) = .ok h.inside :=
    slice_eq_ok (by omega) (by omega)
  simp only [pushHunk, Hunk.bounds, hbefore, hinside, ok_bind, foldl_countOp, pushUsize_eq]
  refine .ok ?_
  rw [toList_foldl_pushOp]
  -- The equation of `header` is slow to derive, so its definition is put in.
  delta Hunk.text Hunk.header
  simp [Hunk.range]

theorem foldlM_pushHunk (hunks : List (Hunk ops)) (out : String) :
    Returns ((hunks.map Hunk.bounds).foldlM (pushHunk ops) out) fun out' =>
      out'.toList = out.toList ++ hunks.flatMap Hunk.text := by
  induction hunks generalizing out with
  | nil => exact .ok (List.append_nil _).symm
  | cons h hunks ih =>
    rw [List.map_cons, List.foldlM_cons]
    refine (pushHunk_returns out h).bind fun out' hout => ?_
    refine (ih out').mono fun out'' hout'' => ?_
    rw [hout'', hout, List.append_assoc, List.flatMap_cons]

end Text

/-! ### What is printed -/

section Format

variable {ops : List DiffOp} {contextLines : Nat}

/-- The merged windows are hunks of the script. -/
theorem exists_hunks (ops : List DiffOp) (contextLines : Nat) :
    ∃ hunks : List (Hunk ops), hunks.map Hunk.bounds = merge (windows ops contextLines) := by
  refine CanLift.prf _ fun p hp => ?_
  have hle := valid_merge (ascending_windows ops contextLines) (valid_windows ops contextLines) p hp
  -- The last operation belongs to some window, and the windows end in the script.
  obtain ⟨c, hc, -, hlast⟩ := (covered_windows_iff ops contextLines p.2).mp ⟨p, hp, hle, le_rfl⟩
  have hlt := hc.lt
  dsimp only [windowOf] at hlast
  exact ⟨hle, by omega⟩

section Hunks

variable {hunks : List (Hunk ops)}
  (hbounds : hunks.map Hunk.bounds = merge (windows ops contextLines))
include hbounds

theorem pairwise_hunks : hunks.Pairwise fun a b => a.stop + 1 < b.start := by
  have hsep := pairwise_merge (ascending_windows ops contextLines) (valid_windows ops contextLines)
  rw [← hbounds] at hsep
  exact List.pairwise_map.mp hsep

theorem covered_hunks_iff {i : Nat} (hi : i < ops.length) :
    (∃ h ∈ hunks, i ∈ Set.Icc h.start h.stop) ↔ NearChange ops contextLines i := by
  have hcover := covered_windows_iff ops contextLines i
  rw [← hbounds] at hcover
  simp only [List.mem_map, exists_exists_and_eq_and] at hcover
  exact hcover.trans (exists_congr fun c => and_congr_right fun _ => mem_windowOf_iff hi)

/-- Every change lies in exactly one hunk. -/
theorem existsUnique_hunk {i : Nat} (hi : ChangeAt ops i) :
    ∃! h, h ∈ hunks ∧ i ∈ Set.Icc h.start h.stop := by
  have hnear : NearChange ops contextLines i :=
    ⟨i, hi, Nat.le_add_right _ _, Nat.le_add_right _ _⟩
  obtain ⟨h, hmem, hin⟩ := (covered_hunks_iff hbounds hi.lt).mpr hnear
  refine ⟨h, ⟨hmem, hin⟩, fun h' ⟨hmem', hin'⟩ => ?_⟩
  -- Of two different hunks, one ends before the other starts.
  have happart : hunks.Pairwise fun a b => a.stop < b.start ∨ b.stop < a.start :=
    (pairwise_hunks hbounds).imp fun hlt => .inl (Nat.lt_of_succ_lt hlt)
  have hsymm : Std.Symm fun a b : Hunk ops => a.stop < b.start ∨ b.stop < a.start :=
    ⟨fun _ _ => Or.symm⟩
  by_contra hne
  have hgap := happart.forall hmem' hmem hne
  simp only [Set.mem_Icc] at hin hin'
  omega

theorem formatUnified_eq (hfit : ∀ i, ChangeAt ops i → i + contextLines < 2 ^ 64) :
    Returns (formatUnified ops contextLines) fun out =>
      out.toList = hunks.flatMap Hunk.text := by
  unfold formatUnified
  have hchange : ∀ c ∈ changesOf ops, ChangeAt ops c := fun c => mem_changesOf_iff.mp
  cases hchanges : changesOf ops with
  | nil =>
    rw [windows, hchanges] at hbounds
    rw [List.map_eq_nil_iff.mp hbounds]
    exact .ok rfl
  | cons first rest =>
    rw [windows, hchanges] at hbounds
    rw [hchanges] at hchange
    dsimp only
    rw [hunksOf_eq hchange fun c hc => hfit c (hchange c hc), ok_bind, ← hbounds]
    exact foldlM_pushHunk hunks ""

end Hunks

/-- For every script and every context that can be added to the index of a change within
a machine word, the text is that of a list of hunks. They are in order and disjoint, every
insertion and deletion lies in exactly one of them, and what they contain is exactly what
lies within the context of a change. Each header gives, for the old and the new text, one
more than the number of lines before the hunk and the number of lines in it. -/
theorem formatUnified_hunks (ops : List DiffOp) (contextLines : Nat)
    (hfit : ∀ i, ChangeAt ops i → i + contextLines < 2 ^ 64) :
    ∃ (out : String) (hunks : List (Hunk ops)), formatUnified ops contextLines = .ok out ∧
      out.toList = hunks.flatMap Hunk.text ∧
      hunks.Pairwise (fun a b => a.stop < b.start) ∧
      (∀ i, ChangeAt ops i → ∃! h, h ∈ hunks ∧ i ∈ Set.Icc h.start h.stop) ∧
      ∀ i < ops.length,
        (∃ h ∈ hunks, i ∈ Set.Icc h.start h.stop) ↔ NearChange ops contextLines i := by
  obtain ⟨hunks, hbounds⟩ := exists_hunks ops contextLines
  obtain ⟨out, hout, htext⟩ := formatUnified_eq hbounds hfit
  refine ⟨out, hunks, hout, htext, ?_, ?_, ?_⟩
  · exact (pairwise_hunks hbounds).imp fun hlt => Nat.lt_of_succ_lt hlt
  · exact fun i hi => existsUnique_hunk hbounds hi
  · exact fun i hi => covered_hunks_iff hbounds hi

/-- Two changes whose windows overlap. -/
def twoChanges : List DiffOp := [.insert "x", .equal "a", .delete "b", .equal "c", .equal "d"]

theorem formatUnified_hunks_merged :
    (∀ i, ChangeAt twoChanges i → i + 1 < 2 ^ 64) ∧
    formatUnified twoChanges 1 = .ok "@@ -1,3 +1,3 @@\n+x\n a\n-b\n c\n" ∧
    ∃ (out : String) (hunks : List (Hunk twoChanges)), formatUnified twoChanges 1 = .ok out ∧
      out.toList = hunks.flatMap Hunk.text ∧
      hunks.Pairwise (fun a b => a.stop < b.start) ∧
      (∀ i, ChangeAt twoChanges i → ∃! h, h ∈ hunks ∧ i ∈ Set.Icc h.start h.stop) ∧
      ∀ i < 5, (∃ h ∈ hunks, i ∈ Set.Icc h.start h.stop) ↔ NearChange twoChanges 1 i := by
  have hfit : ∀ i, ChangeAt twoChanges i → i + 1 < 2 ^ 64 := by
    intro i hi
    have hlt : i < 5 := hi.lt
    omega
  exact ⟨hfit, by decide, formatUnified_hunks twoChanges 1 hfit⟩

/-- A header counts the lines from one, although none is before it in either text; and a
context that cannot be added to an index stops the function. -/
theorem formatUnified_counts_from_one :
    formatUnified [.insert "x"] 0 = .ok "@@ -1,0 +1,1 @@\n+x\n" ∧
    formatUnified [.equal "a", .insert "x"] (2 ^ 64 - 1) = .error .overflow := by
  decide

end Format

end MerlionKernel.Diff
