import MerlionKernel.Vfs.Calls

/-!
# The shape of the tree

Resolving the path of an inode leads back to it when every name on the way is not empty and
is that of the first child. Two calls break this. `mkdir` accepts a path that ends in a slash
and adds a directory with an empty name, which no path reaches. `rm` renames what it deletes
to `(deleted)`, and when a later file of the directory really has that name, its path leads
to the deleted one from then on. All other calls keep the shape.
-/

namespace MerlionKernel.Vfs

open Rust Theory

variable {fs : Filesystem} {inodes inodes' : List Inode}

/-- Every inode hangs below a directory in front of it; the live children of a directory
have different names, none of them empty; the path of a live inode leads to it. -/
structure TreeShape (fs : Filesystem) : Prop where
  parents : ∀ (i : Nat) (a : Inode), fs.inodes[i]? = some a → i ≠ 0 → a.parent < i ∧
    ∃ dir, fs.inodes[a.parent]? = some dir ∧ dir.nodeType = .directory
  siblings : ∀ (i j : Nat) (a b : Inode), fs.inodes[i]? = some a → fs.inodes[j]? = some b →
    i ≠ 0 → j ≠ 0 → Live a → Live b → a.parent = b.parent → a.name = b.name → i = j
  named : ∀ (i : Nat) (a : Inode), fs.inodes[i]? = some a → i ≠ 0 → Live a → a.name ≠ ""
  paths : ∀ (i : Nat) (a : Inode), fs.inodes[i]? = some a → Live a →
    Returns (fs.buildPath i) fun path => fs.resolve path = some i

/-- The invariant of the careful calls. -/
structure Shaped (inodes : List Inode) : Prop extends Rooted inodes where
  named : ∀ (i : Nat) (a : Inode), inodes[i]? = some a → i ≠ 0 → Live a → a.name ≠ ""
  first : ∀ (i : Nat) (a : Inode), inodes[i]? = some a → i ≠ 0 → Live a →
    findChild inodes a.parent a.name = some i

/-- Deleting the inode `idx` hides a later one: it is live, in the same directory, and has
the name that deleted files get. -/
def Hides (inodes : List Inode) (idx : Nat) : Prop :=
  ∃ inode, inodes[idx]? = some inode ∧ ∃ (j : Nat) (later : Inode), idx < j ∧
    inodes[j]? = some later ∧ Live later ∧ later.parent = inode.parent ∧ later.name = "(deleted)"

/-- The call, if it succeeds, neither makes a directory without a name nor hides a file. -/
def Careful (vfs : VfsLock) : Call → Prop
  | .write _ _ _ => True
  | .rm sec path => ∀ vfs', Vfs.rm vfs sec path = .ok (.ok (), vfs') →
    ∀ fs idx, vfs = some fs → fs.resolve path = some idx → ¬ Hides fs.inodes idx
  | .mkdir sec path => ∀ vfs', Vfs.mkdir vfs sec path = .ok (.ok (), vfs') →
    ∀ parentPath name, splitPath path = .ok (parentPath, name) → name ≠ ""

/-! ### Paths lead back -/

theorem live_getElem? {i : Nat} {a : Inode} (ha : inodes[i]? = some a) (hlive : Live a) :
    ∀ b, inodes[i]? = some b → Live b := by
  intro b hb
  rwa [Option.some.inj (hb.symm.trans ha)]

/-- The names above a live inode are proper path components. -/
theorem Rooted.names_of_below (h : Rooted inodes)
    (hnamed : ∀ (i : Nat) (a : Inode), inodes[i]? = some a → i ≠ 0 → Live a → a.name ≠ "")
    {i : Nat} {names : List String} (hbelow : Below inodes i names)
    (hlive : ∀ a, inodes[i]? = some a → Live a) :
    ∀ p ∈ names, p ≠ "" ∧ '/' ∉ p.toList := by
  induction hbelow with
  | root => simp
  | @child i inode names hne hinode hup habove ih =>
    obtain ⟨-, dir, hdir, htype⟩ := h.parents i inode hinode hne
    intro p hp
    rcases List.mem_append.mp hp with hp | hp
    · exact ih (live_getElem? hdir (live_of_directory htype)) p hp
    · rw [List.mem_singleton.mp hp]
      exact ⟨hnamed i inode hinode hne (hlive inode hinode), h.slashless i inode hinode⟩

theorem Rooted.pieces_of_below (h : Rooted inodes)
    (hnamed : ∀ (i : Nat) (a : Inode), inodes[i]? = some a → i ≠ 0 → Live a → a.name ≠ "")
    {i : Nat} {names : List String} (hbelow : Below inodes i names)
    (hlive : ∀ a, inodes[i]? = some a → Live a) : pieces (joinParts names) '/' = names :=
  pieces_joinParts (fun p hp => (h.names_of_below hnamed hbelow hlive p hp).1)
    fun p hp => (h.names_of_below hnamed hbelow hlive p hp).2

namespace Shaped

theorem walk_below (h : Shaped inodes) {i : Nat} {names : List String}
    (hbelow : Below inodes i names) (hlive : ∀ a, inodes[i]? = some a → Live a) :
    walk inodes names = some i := by
  induction hbelow with
  | root => rfl
  | @child i inode names hne hinode hup habove ih =>
    obtain ⟨-, dir, hdir, htype⟩ := h.parents i inode hinode hne
    rw [walk_append_singleton, ih (live_getElem? hdir (live_of_directory htype))]
    exact h.first i inode hinode hne (hlive inode hinode)

theorem treeShape (h : Shaped fs.inodes) : TreeShape fs := by
  refine ⟨h.parents, h.siblings, h.named, ?_⟩
  intro i a ha hlive
  by_cases hne : i = 0
  · subst hne
    refine .ok ?_
    rw [resolve_eq_walk, pieces_root, walk_nil]
  · have hi := (List.getElem?_eq_some_iff.mp ha).1
    obtain ⟨names, hbelow⟩ := h.exists_below i hi
    have hlive' := live_getElem? ha hlive
    rw [hbelow.buildPath hi hne]
    refine .ok ?_
    rw [resolve_eq_walk, h.pieces_of_below h.named hbelow hlive']
    exact h.walk_below hbelow hlive'

/-! ### Changes -/

theorem initial : Shaped Filesystem.initialInodes := by
  have hnamed : ∀ i : Fin 14, i.val ≠ 0 → Filesystem.initialInodes[i].name ≠ "" := by decide
  have hfirst : ∀ i : Fin 14, i.val ≠ 0 → findChild Filesystem.initialInodes
      Filesystem.initialInodes[i].parent Filesystem.initialInodes[i].name = some i.val := by
    decide
  refine ⟨Rooted.initial, ?_, ?_⟩
  · intro i a ha hne _
    obtain ⟨hi, rfl⟩ := List.getElem?_eq_some_iff.mp ha
    exact hnamed ⟨i, hi⟩ hne
  · intro i a ha hne _
    obtain ⟨hi, rfl⟩ := List.getElem?_eq_some_iff.mp ha
    exact hfirst ⟨i, hi⟩ hne

theorem added (h : Shaped inodes) {new : Inode} (hrooted : Rooted (inodes ++ [new]))
    (habsent : findChild inodes new.parent new.name = none) (hname : new.name ≠ "") :
    Shaped (inodes ++ [new]) := by
  refine ⟨hrooted, ?_, ?_⟩
  · intro i a ha hne hlive
    rcases of_getElem?_append ha with hold | ⟨-, rfl⟩
    · exact h.named i a hold hne hlive
    · exact hname
  · intro i a ha hne hlive
    -- An inode at the end of the table is found only where nothing was found before.
    rcases of_getElem?_append ha with hold | ⟨rfl, rfl⟩
    · exact findChild_append_of_some new (h.first i a hold hne hlive)
    · exact findChild_append_of_none habsent h.ne_nil

theorem wrote (h : Shaped inodes) {idx : Nat} {inode : Inode} (hinode : inodes[idx]? = some inode)
    (htype : inode.nodeType = .regularFile) (data : String) :
    Shaped (inodes.set idx { inode with data }) := by
  -- The lookup reads parents and names, which a write leaves alone.
  have hlookup : ∀ dir name, findChild (inodes.set idx { inode with data }) dir name =
      findChild inodes dir name := findChild_congr (map_set_of_same hinode rfl)
  have hlive := live_of_regularFile htype
  refine ⟨h.toRooted.change (.wrote hinode htype data), ?_, ?_⟩
  · intro i a ha hne ha'
    rcases of_getElem?_set ha with ⟨rfl, rfl, -⟩ | ⟨-, hold⟩
    · exact h.named i inode hinode hne hlive
    · exact h.named i a hold hne ha'
  · intro i a ha hne ha'
    rw [hlookup]
    rcases of_getElem?_set ha with ⟨rfl, rfl, -⟩ | ⟨-, hold⟩
    · exact h.first i inode hinode hne hlive
    · exact h.first i a hold hne ha'

theorem deleted (h : Shaped inodes) {idx : Nat} {inode : Inode} (hne : idx ≠ 0)
    (hinode : inodes[idx]? = some inode) (htype : inode.nodeType = .regularFile)
    (hhides : ¬ Hides inodes idx) : Shaped (inodes.set idx inode.deleted) := by
  refine ⟨h.toRooted.change (.deleted hne hinode htype), ?_, ?_⟩
  · intro i a ha hi hlive
    rcases of_getElem?_set ha with ⟨-, rfl, -⟩ | ⟨-, hold⟩
    · exact absurd hlive (not_live_deleted inode)
    · exact h.named i a hold hi hlive
  · intro i a ha hi hlive
    rcases of_getElem?_set ha with ⟨-, rfl, -⟩ | ⟨-, hold⟩
    · exact absurd hlive (not_live_deleted inode)
    · obtain ⟨-, hfirst⟩ := findChild_eq_some_iff.mp (h.first i a hold hi hlive)
      refine findChild_eq_some_iff.mpr ⟨isChild_iff.mpr ⟨hi, a, ha, rfl, rfl⟩, ?_⟩
      intro j hj
      by_cases hidx : j = idx
      · -- The deleted inode is in front; it would be found only under its new name.
        subst hidx
        rw [Bool.eq_false_iff]
        intro hchild
        obtain ⟨-, b, hb, hparent, hname⟩ := isChild_iff.mp hchild
        rcases of_getElem?_set hb with ⟨-, rfl, -⟩ | ⟨hcontra, -⟩
        · exact hhides ⟨inode, hinode, i, a, hj, hold, hlive, hparent.symm, hname.symm⟩
        · exact hcontra rfl
      · rw [← hfirst j hj, isChild, isChild, List.getElem?_set_ne (Ne.symm hidx)]

end Shaped

/-! ### The two calls that break the shape -/

/-- Deleting a file that hides another one leaves a path that leads to the wrong inode. -/
theorem not_treeShape_of_hides {fs' : Filesystem} (h : Rooted fs.inodes) {idx : Nat}
    {inode : Inode} (hne : idx ≠ 0) (hinode : fs.inodes[idx]? = some inode)
    (htype : inode.nodeType = .regularFile) (hhides : Hides fs.inodes idx)
    (hfs' : fs'.inodes = fs.inodes.set idx inode.deleted) : ¬ TreeShape fs' := by
  intro hshape
  obtain ⟨inode', hinode', j, later, hlt, hlater, hlive, hparent, hname⟩ := hhides
  obtain rfl := Option.some.inj (hinode.symm.trans hinode')
  have hrooted : Rooted fs'.inodes := hfs' ▸ h.change (.deleted hne hinode htype)
  have hj : fs'.inodes[j]? = some later := by
    rw [hfs', List.getElem?_set_ne (Nat.ne_of_lt hlt), hlater]
  have hdead : fs'.inodes[idx]? = some inode.deleted := by
    rw [hfs', List.getElem?_set_self (List.getElem?_eq_some_iff.mp hinode).1]
  have hj0 : j ≠ 0 := Nat.ne_of_gt (Nat.lt_of_le_of_lt (Nat.zero_le idx) hlt)
  have hjlt := (List.getElem?_eq_some_iff.mp hj).1
  have hlive' := live_getElem? hj hlive
  obtain ⟨names, hbelow⟩ := hrooted.exists_below j hjlt
  have hresolve := (hshape.paths j later hj hlive).elim (hbelow.buildPath hjlt hj0)
  rw [resolve_eq_walk, hrooted.pieces_of_below hshape.named hbelow hlive'] at hresolve
  -- The last step of the walk finds the deleted inode before the later one.
  cases hbelow with
  | root => exact hj0 rfl
  | child _ hlast _ _ =>
    obtain rfl := Option.some.inj (hlast.symm.trans hj)
    rw [walk_append_singleton, Option.bind_eq_some_iff] at hresolve
    obtain ⟨dir, -, hfound⟩ := hresolve
    obtain ⟨hchild, hfirst⟩ := findChild_eq_some_iff.mp hfound
    obtain ⟨-, a, ha, hdir, -⟩ := isChild_iff.mp hchild
    rw [Option.some.inj (ha.symm.trans hj)] at hdir
    have hidx := hfirst idx hlt
    rw [isChild_iff.mpr ⟨hne, _, hdead, hparent.symm.trans hdir, hname.symm⟩] at hidx
    cases hidx

/-- A directory without a name is not part of a well-shaped tree. -/
theorem not_treeShape_of_unnamed (h : fs.inodes ≠ []) {fs' : Filesystem} {new : Inode}
    (htype : new.nodeType = .directory) (hname : new.name = "")
    (hfs' : fs'.inodes = fs.inodes ++ [new]) : ¬ TreeShape fs' := by
  intro hshape
  refine hshape.named fs.inodes.length new ?_ ?_ (live_of_directory htype) hname
  · rw [hfs', List.getElem?_concat_length]
  · simpa using h

/-! ### Runs -/

def LockShape : VfsLock → Prop
  | none => False
  | some fs => TreeShape fs

def LockShaped : VfsLock → Prop
  | none => False
  | some fs => Shaped fs.inodes

theorem LockShaped.keep (vfs : VfsLock) (call : Call) (vfs' : VfsLock) (h : LockShaped vfs)
    (hcareful : Careful vfs call) (hstep : step vfs call = .ok vfs') : LockShaped vfs' := by
  cases vfs with
  | none => exact h.elim
  | some fs =>
    have hshaped : Shaped fs.inodes := h
    have hrooted := hshaped.toRooted
    cases call with
    | write sec path data =>
      obtain ⟨⟨result, vfs''⟩, hcall, hpost⟩ := hrooted.write_returns sec path data
      simp only [step, hcall, ok_bind, pure_eq_ok, Except.ok.injEq] at hstep
      subst hstep
      cases vfs'' with
      | none => exact hpost.elim
      | some fs' =>
        refine write_cases (motive := Shaped) hpost hshaped ?_ ?_
        · intro new dir hdir htype habsent hslash hname
          exact hshaped.added (hrooted.added hdir htype habsent hslash) habsent hname
        · intro idx inode hinode htype
          exact hshaped.wrote hinode htype data
    | rm sec path =>
      obtain ⟨⟨result, vfs''⟩, hcall, hpost⟩ := hrooted.rm_returns sec path
      simp only [step, hcall, ok_bind, pure_eq_ok, Except.ok.injEq] at hstep
      subst hstep
      rcases rm_cases hpost with rfl | ⟨fs', idx, inode, rfl, rfl, hwalk, hne, hinode, htype, heq⟩
      · exact h
      · have hhides := hcareful _ hcall fs idx rfl (by rw [resolve_eq_walk, hwalk])
        rw [LockShaped, heq]
        exact hshaped.deleted hne hinode htype hhides
    | mkdir sec path =>
      obtain ⟨⟨result, vfs''⟩, hcall, hpost⟩ := hrooted.mkdir_returns sec path
      simp only [step, hcall, ok_bind, pure_eq_ok, Except.ok.injEq] at hstep
      subst hstep
      rcases mkdir_cases hpost with
        rfl | ⟨fs', parentPath, name, parent, dir, rfl, rfl, hsplit, -, hdir, htype, habsent, heq⟩
      · exact h
      · rw [LockShaped, heq]
        exact hshaped.added (hrooted.added hdir htype habsent (of_splitPath hsplit).1) habsent
          (hcareful _ hcall parentPath name hsplit)

theorem LockShaped.broken (vfs : VfsLock) (call : Call) (h : LockShaped vfs)
    (hcareless : ¬ Careful vfs call) : ∃ vfs', step vfs call = .ok vfs' ∧ ¬ LockShape vfs' := by
  cases vfs with
  | none => exact h.elim
  | some fs =>
    have hrooted : Rooted fs.inodes := Shaped.toRooted h
    cases call with
    | write sec path data => exact absurd trivial hcareless
    | rm sec path =>
      simp only [Careful, not_forall] at hcareless
      obtain ⟨vfs', hcall, fs₀, idx, hsome, hresolve, hhides⟩ := hcareless
      obtain rfl := Option.some.inj hsome
      refine ⟨vfs', by simp [step, hcall], ?_⟩
      have hpost := (hrooted.rm_returns sec path).elim hcall
      cases vfs' with
      | none => exact hpost.elim
      | some fs' =>
        obtain ⟨idx', inode, hwalk, hne, hinode, htype, heq⟩ := hpost
        rw [resolve_eq_walk, hwalk, Option.some.injEq] at hresolve
        subst hresolve
        exact not_treeShape_of_hides hrooted hne hinode htype (Classical.not_not.mp hhides) heq
    | mkdir sec path =>
      simp only [Careful, not_forall] at hcareless
      obtain ⟨vfs', hcall, parentPath, name, hsplit, hname⟩ := hcareless
      refine ⟨vfs', by simp [step, hcall], ?_⟩
      have hpost := (hrooted.mkdir_returns sec path).elim hcall
      cases vfs' with
      | none => exact hpost.elim
      | some fs' =>
        obtain ⟨parentPath', name', parent, dir, hsplit', -, -, -, -, heq⟩ := hpost
        rw [hsplit, Except.ok.injEq, Prod.mk.injEq] at hsplit'
        obtain ⟨-, rfl⟩ := hsplit'
        exact not_treeShape_of_unnamed hrooted.ne_nil rfl (Classical.not_not.mp hname) heq

/-- From the tree at the start every call returns, and the tree keeps its shape throughout
exactly when no successful `mkdir` has an empty name and no successful `rm` hides a file. -/
theorem always_treeShape_iff (calls : List Call) : Returns init fun vfs =>
    (∃ vfs', run step vfs calls = .ok vfs') ∧
      (Always step LockShape vfs calls ↔ Guarded step Careful vfs calls) := by
  refine init_returns.mono ?_
  rintro vfs ⟨fs, rfl, hfs⟩
  have hshaped : LockShaped (some fs) := by
    rw [LockShaped, hfs]
    exact Shaped.initial
  constructor
  · obtain ⟨vfs', hrun, -⟩ := run_returns LockRooted (fun vfs call h => step_lockRooted vfs call h)
      (s := some fs) (Shaped.toRooted hshaped) calls
    exact ⟨vfs', hrun⟩
  · apply always_iff_guarded LockShaped
    · intro vfs h
      cases vfs with
      | none => exact h
      | some fs => exact Shaped.treeShape h
    · exact LockShaped.keep
    · exact LockShaped.broken
    · exact hshaped

/-- The entry at an index after a run, its path, and where the path leads. -/
def pathAfter (calls : List Call) (idx : Nat) :
    Exec (Option (String × NodeType) × String × Option Nat) := do
  match ← run step (← init) calls with
  | none => .error .unwrap
  | some fs =>
    let path ← fs.buildPath idx
    return (fs.inodes[idx]?.map fun a => (a.name, a.nodeType), path, fs.resolve path)

/-- `mkdir("/tmp/")` makes a directory without a name whose path leads to `/tmp`; deleting
`/tmp/a` makes the path of the live file `/tmp/(deleted)` lead to what is left of `/tmp/a`. -/
theorem slash_and_deleted_break_shape :
    pathAfter [.mkdir ⟨Security.init, []⟩ "/tmp/"] 14 =
        .ok (some ("", .directory), "/tmp/", some 13) ∧
      pathAfter [.write ⟨Security.init, []⟩ "/tmp/a" "x",
          .write ⟨Security.init, []⟩ "/tmp/(deleted)" "y", .rm ⟨Security.init, []⟩ "/tmp/a"] 15 =
        .ok (some ("(deleted)", .regularFile), "/tmp/(deleted)", some 14) := by
  constructor
  · decide +kernel
  · decide +kernel

end MerlionKernel.Vfs
