import MerlionKernel.Vfs.Calls

/-!
# The file system as a store of files

What `write` puts under a path, `cat` reads back, and no other file changes. `rm` takes the
file away under its own name, but not out of its directory: the entry stays in every listing
as `(deleted)`, and a file that had that very name can still be reached after it was removed.
-/

namespace MerlionKernel.Vfs

open Rust Theory

variable {fs fs₁ : Filesystem} {inodes inodes' : List Inode} {sec : Security}
  {path data : String}

/-- The lock after some calls. -/
def Reached (vfs : VfsLock) : Prop :=
  ∃ (start : VfsLock) (calls : List Call), init = .ok start ∧ run step start calls = .ok vfs

theorem Reached.rooted (h : Reached (some fs)) : Rooted fs.inodes := by
  obtain ⟨start, calls, hinit, hrun⟩ := h
  obtain ⟨fs₀, rfl, hfs₀⟩ := init_returns.elim hinit
  have hstart : LockRooted (some fs₀) := by
    rw [LockRooted, hfs₀]
    exact Rooted.initial
  exact (run_returns LockRooted step_lockRooted hstart calls).elim hrun

/-- The path leads to one of the device nodes that accept writes. -/
def NamesDevice (fs : Filesystem) (path : String) : Prop :=
  ∃ idx inode, fs.resolve path = some idx ∧ fs.inodes[idx]? = some inode ∧
    (inode.nodeType = .devNull ∨ inode.nodeType = .devSerial)

/-! ### Walks after a change -/

theorem walk_congr (h : ∀ dir name, findChild inodes' dir name = findChild inodes dir name)
    (components : List String) : walk inodes' components = walk inodes components := by
  have hfind : findChild inodes' = findChild inodes := by
    funext dir name
    exact h dir name
  rw [walk, walk, hfind]

/-- The way to an inode uses only directories in front of it. -/
theorem Rooted.walk_eq_of_below (h : Rooted inodes) {components : List String} {i : Nat}
    (hwalk : walk inodes components = some i)
    (hsame : ∀ dir < i, ∀ name, findChild inodes' dir name = findChild inodes dir name) :
    walk inodes' components = some i := by
  -- From the last component back: the directory of an inode is in front of it.
  induction components using List.reverseRecOn generalizing i with
  | nil => exact hwalk
  | append_singleton components name ih =>
    rw [walk_append_singleton, Option.bind_eq_some_iff] at hwalk ⊢
    obtain ⟨dir, hdir, hchild⟩ := hwalk
    obtain ⟨hne, inode, hinode, rfl, -⟩ := child_of_findChild hchild
    have hlt := (h.parents i inode hinode hne).1
    refine ⟨inode.parent, ih hdir fun d hd => hsame d (Nat.lt_trans hd hlt), ?_⟩
    rw [hsame _ hlt, hchild]

/-- Replacing an inode is seen only in its directory. -/
theorem findChild_set_of_ne {idx dir : Nat} {old new : Inode} (hold : inodes[idx]? = some old)
    (hparent : new.parent = old.parent) (hdir : dir ≠ old.parent) (name : String) :
    findChild (inodes.set idx new) dir name = findChild inodes dir name := by
  have hchild : isChild (inodes.set idx new) dir name = isChild inodes dir name := by
    funext i
    by_cases hi : i = idx
    · subst hi
      have hlt := (List.getElem?_eq_some_iff.mp hold).1
      rw [isChild, isChild, List.getElem?_set_self hlt, hold]
      simp [hparent, Ne.symm hdir]
    · rw [isChild, isChild, List.getElem?_set_ne (Ne.symm hi)]
  rw [findChild, findChild, hchild, List.length_set]

/-! ### Listings -/

/-- The listing of a directory around one of its entries. -/
theorem listDir_eq {front back : List Inode} {node : Inode} {dir : Nat}
    (hfs : fs.inodes = front ++ node :: back) (hfront : front ≠ []) (hnode : node.parent = dir) :
    fs.listDir dir =
      ((front.zipIdx.filter fun (a, i) => i ≠ 0 ∧ a.parent = dir).map Prod.fst) ++
        node :: ((back.zipIdx (front.length + 1)).filter fun (a, i) =>
          i ≠ 0 ∧ a.parent = dir).map Prod.fst := by
  have hne : front.length ≠ 0 := by simpa using hfront
  rw [Filesystem.listDir, hfs, List.zipIdx_append, List.zipIdx_cons, Nat.zero_add,
    List.filter_append, List.filter_cons_of_pos (by simp [hne, hnode]), List.map_append,
    List.map_cons]

/-- Replacing an inode in its directory replaces its entry in the listing. -/
theorem listDir_set {fs' : Filesystem} {idx : Nat} {old new : Inode} (hne : idx ≠ 0)
    (hold : fs.inodes[idx]? = some old) (hparent : new.parent = old.parent)
    (hfs' : fs'.inodes = fs.inodes.set idx new) :
    ∃ before after, fs.listDir old.parent = before ++ old :: after ∧
      fs'.listDir old.parent = before ++ new :: after := by
  obtain ⟨front, back, hsplit, hlength, hset, -⟩ := exists_around hold
  have hfront : front ≠ [] := by
    rintro rfl
    exact hne hlength.symm
  exact ⟨_, _, listDir_eq hsplit hfront rfl, listDir_eq (hfs'.trans (hset new)) hfront hparent⟩

/-! ### The calls on a regular file -/

theorem cat_eq {procText : NodeType → String} {idx : Nat} {inode : Inode}
    (hread : sec.canRead path = true) (hresolve : fs.resolve path = some idx)
    (hinode : fs.inodes[idx]? = some inode) (htype : inode.nodeType = .regularFile) :
    cat (some fs) sec procText path = .ok (.ok inode.data) := by
  simp [cat, hread, hresolve, index_eq_ok_iff.mpr hinode, htype, Filesystem.readFile]

theorem rm_eq {idx : Nat} {inode : Inode} (hwrite : sec.canWrite path = true)
    (hresolve : fs.resolve path = some idx) (hne : idx ≠ 0)
    (hinode : fs.inodes[idx]? = some inode) (htype : inode.nodeType = .regularFile) :
    ∃ fs', rm (some fs) sec path = .ok (.ok (), some fs') ∧
      fs'.inodes = fs.inodes.set idx inode.deleted := by
  have hlt := (List.getElem?_eq_some_iff.mp hinode).1
  have hdelete : fs.deleteFile idx = .ok (.ok (),
      { fs.cacheRemove idx with inodes := fs.inodes.set idx inode.deleted }) := by
    rw [Filesystem.deleteFile, if_neg (by omega), index_eq_ok_iff.mpr hinode]
    simp [htype, Filesystem.cacheRemove]
  refine ⟨{ fs.cacheRemove idx with inodes := fs.inodes.set idx inode.deleted }, ?_, rfl⟩
  simp only [rm, hwrite, not_true_eq_false, if_false, hresolve, hdelete, ok_bind]
  rfl

theorem ls_eq {dir : Inode} {idx : Nat} (hresolve : fs.resolve path = some idx)
    (hdir : fs.inodes[idx]? = some dir) (htype : dir.nodeType = .directory) :
    ls (some fs) path =
      .ok (.ok ((fs.listDir idx).map fun node => (node.name, typeChar node.nodeType))) := by
  simp [ls, hresolve, index_eq_ok_iff.mpr hdir, htype]

/-- What a successful `write` to something other than a device leaves. -/
theorem of_write_ok (h : Rooted fs.inodes) (hdevice : ¬ NamesDevice fs path)
    (hok : write (some fs) sec path data = .ok (.ok (), some fs₁)) :
    ∃ idx inode, fs₁.resolve path = some idx ∧ fs₁.inodes[idx]? = some inode ∧
      inode.nodeType = .regularFile ∧ inode.data = data ∧
      (∀ i a, fs.inodes[i]? = some a → i ≠ idx → fs₁.inodes[i]? = some a) ∧
      (∀ q i, fs.resolve q = some i → fs₁.resolve q = some i) := by
  rcases (h.write_returns sec path data).elim hok with ⟨message, hcontra, -⟩ | hwrote
  · cases hcontra
  · obtain ⟨idx, opened, hopen, hstored⟩ := hwrote
    have hwalk := hopen.walk_eq h
    -- The file is no device: one that was found would be named, one that was created is regular.
    have hnot : ∀ inode : Inode, opened[idx]? = some inode →
        ¬ (inode.nodeType = .devNull ∨ inode.nodeType = .devSerial) := by
      intro inode hinode htype
      cases hopen with
      | found hfound =>
        exact hdevice ⟨idx, inode, (resolve_eq_walk fs path).trans hfound, hinode, htype⟩
      | created =>
        rw [List.getElem?_concat_length, Option.some.injEq] at hinode
        subst hinode
        rcases htype with htype | htype
        · cases htype
        · cases htype
    generalize hfs₁ : fs₁.inodes = stored at hstored
    cases hstored with
    | discarded hinode htype => exact absurd htype (hnot _ hinode)
    | @stored inode hinode htype =>
      -- Storing contents changes neither names nor parents, so every walk is the same.
      have hsame : ∀ components, walk (opened.set idx { inode with data }) components =
          walk opened components := walk_congr (findChild_congr (map_set_of_same hinode rfl))
      refine ⟨idx, { inode with data }, ?_, ?_, htype, rfl, ?_, ?_⟩
      · rw [resolve_eq_walk, hfs₁, hsame, hwalk]
      · rw [List.getElem?_set_self (List.getElem?_eq_some_iff.mp hinode).1]
      · intro i a ha hi
        rw [List.getElem?_set_ne (Ne.symm hi), hopen.getElem?_of_some ha]
      · intro q i hq
        rw [resolve_eq_walk] at hq ⊢
        rw [hfs₁, hsame, hopen.walk_of_some hq]

/-- After a file was deleted, the way to its directory is the same, and its own name is
found there only if it is the one deleted files get. -/
theorem Rooted.walk_deleted (h : Rooted inodes) {idx dir : Nat} {inode : Inode}
    {front : List String} {name : String} (hinode : inodes[idx]? = some inode)
    (hfront : walk inodes front = some dir)
    (hchild : findChild inodes dir name = some idx) :
    walk (inodes.set idx inode.deleted) front = some dir ∧
      (walk (inodes.set idx inode.deleted) (front ++ [name]) = none ↔ name ≠ "(deleted)") := by
  obtain ⟨hne, inode', hinode', hparent, hname⟩ := child_of_findChild hchild
  obtain rfl := Option.some.inj (hinode.symm.trans hinode')
  have hlt := (List.getElem?_eq_some_iff.mp hinode).1
  have hway : walk (inodes.set idx inode.deleted) front = some dir := by
    refine h.walk_eq_of_below hfront fun d hd name => ?_
    exact findChild_set_of_ne hinode (deleted_parent inode) (hparent ▸ Nat.ne_of_lt hd) name
  refine ⟨hway, ?_⟩
  rw [walk_append_singleton, hway, Option.bind_some, findChild_eq_none_iff]
  constructor
  · rintro hnone rfl
    have hself : isChild (inodes.set idx inode.deleted) dir "(deleted)" idx = true :=
      isChild_iff.mpr ⟨hne, _, List.getElem?_set_self hlt, hparent, rfl⟩
    rw [hnone idx] at hself
    cases hself
  · intro hdeleted j
    rw [Bool.eq_false_iff]
    intro hj
    obtain ⟨hj0, a, ha, hap, han⟩ := isChild_iff.mp hj
    rcases of_getElem?_set ha with ⟨-, rfl, -⟩ | ⟨hjne, hold⟩
    · exact hdeleted han.symm
    · -- A second child of this name would have been deleted before.
      rcases h.unique hold hinode hj0 hne (hap.trans hparent.symm) (han.trans hname.symm) with
        heq | heq
      · exact hjne heq
      · exact hdeleted (han.symm.trans heq)

/-- In every reachable file system and with the permission checks passing: after a successful
`write` to a path that does not name a device, `cat` returns the data, every other inode is
as it was, and every path that led to an inode still leads to it. `rm` of the path then
succeeds. Afterwards the path does not exist exactly when its last component is not
`(deleted)`, and the listing of its directory is the one before with the entry replaced by
`(deleted)`, never the one without the entry. -/
theorem store_law (fs fs₁ : Filesystem) (sec : Security) (procText : NodeType → String)
    (path data dirPath name : String) (hreached : Reached (some fs))
    (hread : sec.canRead path = true) (hwrite : sec.canWrite path = true)
    (hdevice : ¬ NamesDevice fs path) (hpath : pieces path '/' = pieces dirPath '/' ++ [name])
    (hok : write (some fs) sec path data = .ok (.ok (), some fs₁)) :
    cat (some fs₁) sec procText path = .ok (.ok data) ∧
    (∀ i a, fs.inodes[i]? = some a → fs₁.resolve path ≠ some i → fs₁.inodes[i]? = some a) ∧
    (∀ q i, fs.resolve q = some i → fs₁.resolve q = some i) ∧
    ∃ fs₂, rm (some fs₁) sec path = .ok (.ok (), some fs₂) ∧
      (exists_ (some fs₂) path = false ↔ name ≠ "(deleted)") ∧
      ∃ before after, ls (some fs₁) dirPath = .ok (.ok (before ++ (name, '-') :: after)) ∧
        ls (some fs₂) dirPath = .ok (.ok (before ++ ("(deleted)", 'c') :: after)) ∧
        ls (some fs₂) dirPath ≠ .ok (.ok (before ++ after)) := by
  obtain ⟨idx, inode, hresolve, hinode, htype, hdata, hothers, hpaths⟩ :=
    of_write_ok hreached.rooted hdevice hok
  have hrooted : Rooted fs₁.inodes := by
    have hlock : LockRooted (some fs₁) := by
      refine (step_lockRooted (some fs) (.write sec path data) hreached.rooted).elim ?_
      simp [step, hok]
    exact hlock
  -- The last step of the way to the file: its directory, and its name there.
  have hwalk := hresolve
  rw [resolve_eq_walk, hpath, walk_append_singleton, Option.bind_eq_some_iff] at hwalk
  obtain ⟨dir, hdir, hchild⟩ := hwalk
  obtain ⟨hne, inode', hinode', hparent, hname⟩ := child_of_findChild hchild
  obtain rfl := Option.some.inj (hinode.symm.trans hinode')
  obtain ⟨hup, dirNode, hdirNode, hdirType⟩ := hrooted.parents idx inode hinode hne
  obtain ⟨hway, hgone⟩ := hrooted.walk_deleted hinode hdir hchild
  obtain ⟨fs₂, hrm, hfs₂⟩ := rm_eq hwrite hresolve hne hinode htype
  refine ⟨?_, fun i a ha hi => hothers i a ha ?_, hpaths, fs₂, hrm, ?_, ?_⟩
  · rw [cat_eq hread hresolve hinode htype, hdata]
  · rintro rfl
    exact hi hresolve
  · rw [← hgone, exists_, Option.bind_some, resolve_eq_walk, hpath, hfs₂,
      Option.isSome_eq_false_iff, Option.isNone_iff_eq_none]
  · rw [← hfs₂] at hway
    have hdirNode₂ : fs₂.inodes[inode.parent]? = some dirNode := by
      rw [hfs₂, List.getElem?_set_ne (Nat.ne_of_gt hup), hdirNode]
    obtain ⟨before, after, hbefore, hafter⟩ := listDir_set hne hinode (deleted_parent inode) hfs₂
    subst hparent
    rw [ls_eq ((resolve_eq_walk _ _).trans hdir) hdirNode hdirType, hbefore,
      ls_eq ((resolve_eq_walk _ _).trans hway) hdirNode₂ hdirType, hafter]
    refine ⟨before.map fun node => (node.name, typeChar node.nodeType),
      after.map fun node => (node.name, typeChar node.nodeType), ?_, ?_, ?_⟩
    · rw [List.map_append, List.map_cons, hname, htype]
      rfl
    · rw [List.map_append, List.map_cons]
      rfl
    · -- Nothing is taken from the listing: it is one entry too long.
      intro hsame
      have hlength := congrArg List.length (Except.ok.inj (Except.ok.inj hsame))
      simp at hlength

/-- The file system at the start. -/
def freshFs : Filesystem := Filesystem.new.toOption.getD ⟨[], []⟩

/-- The file system after `write("/tmp/a", "x")`. -/
def storedFs : Filesystem :=
  match write (some freshFs) ⟨Security.init, []⟩ "/tmp/a" "x" with
  | .ok (_, some fs) => fs
  | _ => freshFs

/-- The law at a new file in `/tmp`. -/
theorem store_law_tmp : cat (some storedFs) ⟨Security.init, []⟩ (fun _ => "") "/tmp/a" =
      .ok (.ok "x") ∧
    ∃ fs₂, rm (some storedFs) ⟨Security.init, []⟩ "/tmp/a" = .ok (.ok (), some fs₂) ∧
      exists_ (some fs₂) "/tmp/a" = false := by
  have hreached : Reached (some freshFs) := ⟨some freshFs, [], by decide +kernel, rfl⟩
  have hdevice : ¬ NamesDevice freshFs "/tmp/a" := by
    rintro ⟨idx, inode, hresolve, -⟩
    have hnone : freshFs.resolve "/tmp/a" = none := by decide +kernel
    rw [hnone] at hresolve
    cases hresolve
  obtain ⟨hcat, -, -, fs₂, hrm, hgone, -⟩ := store_law freshFs storedFs ⟨Security.init, []⟩
    (fun _ => "") "/tmp/a" "x" "/tmp" "a" hreached (by decide) (by decide) hdevice (by decide)
    (by decide +kernel)
  exact ⟨hcat, fs₂, hrm, hgone.mpr (by decide)⟩

/-- A removed file stays in the listing of its directory, and removing a file called
`(deleted)` leaves its path in place. -/
theorem removed_file_still_listed :
    (do
      let vfs ← run step (← init) [.write ⟨Security.init, []⟩ "/tmp/a" "x",
        .rm ⟨Security.init, []⟩ "/tmp/a"]
      ls vfs "/tmp") = .ok (.ok [("(deleted)", 'c')]) ∧
    (do
      let vfs ← run step (← init) [.write ⟨Security.init, []⟩ "/tmp/(deleted)" "y",
        .rm ⟨Security.init, []⟩ "/tmp/(deleted)"]
      return exists_ vfs "/tmp/(deleted)" : Exec Bool) = .ok true := by
  constructor
  · decide +kernel
  · decide +kernel

end MerlionKernel.Vfs
