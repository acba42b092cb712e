import MerlionKernel.Theory.Run
import MerlionKernel.Vfs.Changes

/-!
# The calls on the virtual file system

In a rooted tree every public call returns. What it does to the inodes is said once for each
call, and all three effects are changes of the tree, so a run of calls from the initial tree
stays among the rooted ones.
-/

namespace MerlionKernel.Vfs

open Rust Theory

variable {fs : Filesystem} {inodes inodes' : List Inode} {sec : Security}
  {path data parentPath name : String}

/-! ### The directory and the name of a new entry -/

/-- The components of a path are those of its directory and, unless it ends in a slash, the
name behind the last slash. -/
theorem of_splitPath (h : splitPath path = .ok (parentPath, name)) :
    '/' ∉ name.toList ∧
      pieces path '/' = pieces parentPath '/' ++ if name = "" then [] else [name] := by
  unfold splitPath at h
  split at h
  · cases h
  · rename_i front last hsplit
    obtain ⟨rfl, hslash⟩ := rsplitOnce_eq_some_iff.mp hsplit
    obtain ⟨rfl, rfl⟩ := Prod.mk.inj (Except.ok.inj h)
    have hfront : pieces (if front = "" then "/" else front) '/' = pieces front '/' := by
      split
      · rename_i hempty
        subst hempty
        decide
      · rfl
    refine ⟨hslash, ?_⟩
    rw [pieces_append, hfront]
    split
    · rename_i hempty
      rw [hempty, pieces_empty]
    · rename_i hne
      rw [pieces_of_notMem hslash hne]

/-! ### Writing -/

/-- The file `idx` that a `write` is about: it was found, or it was created. -/
inductive Opened (sec : Security) (path : String) (inodes : List Inode) : Nat → List Inode → Prop
  | found {idx : Nat} (hfound : walk inodes (pieces path '/') = some idx) :
      Opened sec path inodes idx inodes
  | created {parent : Nat} {dir : Inode} {front : List String} {name : String}
      (hpieces : pieces path '/' = front ++ [name]) (hfront : walk inodes front = some parent)
      (hdir : inodes[parent]? = some dir) (htype : dir.nodeType = .directory)
      (habsent : findChild inodes parent name = none) :
      Opened sec path inodes inodes.length
        (inodes ++ [Filesystem.newInode sec name .regularFile parent])

/-- What `write_file` does to the inode `idx`. -/
inductive Stored (inodes : List Inode) (idx : Nat) (data : String) :
    Except String Unit → List Inode → Prop
  | stored {inode : Inode} (hinode : inodes[idx]? = some inode)
      (htype : inode.nodeType = .regularFile) :
      Stored inodes idx data (.ok ()) (inodes.set idx { inode with data })
  | discarded {inode : Inode} (hinode : inodes[idx]? = some inode)
      (htype : inode.nodeType = .devNull ∨ inode.nodeType = .devSerial) :
      Stored inodes idx data (.ok ()) inodes
  | failed (message : String) : Stored inodes idx data (.error message) inodes

/-- The outcome of opening a file. -/
abbrev OpenPost (sec : Security) (path : String) (inodes : List Inode) :
    Except String Nat × Filesystem → Prop
  | (.error _, fs) => fs.inodes = inodes
  | (.ok idx, fs) => Opened sec path inodes idx fs.inodes

@[simp] theorem cacheInsert_inodes (fs : Filesystem) (path : String) (idx : Nat) :
    (fs.cacheInsert path idx).inodes = fs.inodes := by
  unfold Filesystem.cacheInsert
  simp only
  split <;> rfl

theorem Rooted.openFile_returns (h : Rooted fs.inodes) (sec : Security) (path : String) :
    Returns (fs.openFile sec path) (OpenPost sec path fs.inodes) := by
  unfold Filesystem.openFile
  cases hresolve : fs.resolve path with
  | some idx =>
    rw [resolve_eq_walk] at hresolve
    exact .ok (.found hresolve)
  | none =>
    rw [resolve_eq_walk] at hresolve
    cases hsplit : splitPath path with
    | error message => exact .ok rfl
    | ok parts =>
      obtain ⟨parentPath, name⟩ := parts
      simp only
      obtain ⟨hslash, hpieces⟩ := of_splitPath hsplit
      cases hparent : fs.resolve parentPath with
      | none => exact .ok rfl
      | some parent =>
        rw [resolve_eq_walk] at hparent
        -- A path that ends in a slash names what its directory names, which was found.
        have hname : name ≠ "" := by
          rintro rfl
          rw [hpieces, if_pos rfl, List.append_nil, hparent] at hresolve
          cases hresolve
        rw [if_neg hname] at hpieces
        have habsent : findChild fs.inodes parent name = none := by
          rwa [hpieces, walk_append_singleton, hparent] at hresolve
        obtain ⟨dir, hdir⟩ := h.walk_inode hparent
        simp only [Filesystem.createFile, index_eq_ok_iff.mpr hdir, ok_bind, habsent]
        split
        · exact .ok rfl
        · rename_i htype
          split
          · exact .ok rfl
          · have hnew : Rooted (fs.inodes ++
                [Filesystem.newInode sec name .regularFile parent]) :=
              h.added hdir (Classical.not_not.mp htype) habsent hslash
            obtain ⟨built, hbuilt⟩ := buildPath_returns { fs with inodes := fs.inodes ++
              [Filesystem.newInode sec name .regularFile parent] } hnew
              (i := fs.inodes.length) (by simp)
            rw [hbuilt]
            refine .ok ?_
            simp only [OpenPost, cacheInsert_inodes]
            exact .created hpieces hparent hdir (Classical.not_not.mp htype) habsent

theorem writeFile_returns {idx : Nat} {inode : Inode} (hinode : fs.inodes[idx]? = some inode)
    (data : String) : Returns (fs.writeFile idx data)
      fun out => Stored fs.inodes idx data out.1 out.2.inodes := by
  simp only [Filesystem.writeFile, index_eq_ok_iff.mpr hinode, ok_bind]
  split
  · rename_i htype
    split
    · exact .ok (.failed _)
    · exact .ok (.stored hinode htype)
  · rename_i htype
    exact .ok (.discarded hinode (Or.inl htype))
  · rename_i htype
    exact .ok (.discarded hinode (Or.inr htype))
  · exact .ok (.failed _)

theorem Opened.inode (h : Rooted inodes) {idx : Nat} (hopen : Opened sec path inodes idx inodes') :
    ∃ inode, inodes'[idx]? = some inode := by
  cases hopen with
  | found hfound => exact h.walk_inode hfound
  | created => exact ⟨_, List.getElem?_concat_length⟩

/-- An opened file is what its path leads to. -/
theorem Opened.walk_eq (h : Rooted inodes) {idx : Nat}
    (hopen : Opened sec path inodes idx inodes') : walk inodes' (pieces path '/') = some idx := by
  cases hopen with
  | found hfound => exact hfound
  | created hpieces hfront _ _ habsent =>
    rw [hpieces, walk_append_singleton, walk_append_of_some _ hfront]
    exact findChild_append_of_none habsent h.ne_nil

/-- Opening a file leaves every inode where it was. -/
theorem Opened.getElem?_of_some {idx i : Nat} {a : Inode}
    (hopen : Opened sec path inodes idx inodes') (ha : inodes[i]? = some a) :
    inodes'[i]? = some a := by
  cases hopen with
  | found => exact ha
  | created => exact getElem?_append_of_some _ ha

theorem Opened.walk_of_some {idx i : Nat} {components : List String}
    (hopen : Opened sec path inodes idx inodes') (hwalk : walk inodes components = some i) :
    walk inodes' components = some i := by
  cases hopen with
  | found => exact hwalk
  | created => exact walk_append_of_some _ hwalk

/-- The outcome of a `write`. -/
abbrev WritePost (sec : Security) (path data : String) (inodes : List Inode) :
    Except String Unit × VfsLock → Prop
  | (_, none) => False
  | (result, some fs) =>
    (∃ message, result = .error message ∧ fs.inodes = inodes) ∨
      ∃ idx opened, Opened sec path inodes idx opened ∧ Stored opened idx data result fs.inodes

theorem Rooted.write_returns (h : Rooted fs.inodes) (sec : Security) (path data : String) :
    Returns (write (some fs) sec path data) (WritePost sec path data fs.inodes) := by
  unfold write
  split
  · exact .ok (Or.inl ⟨_, rfl, rfl⟩)
  · refine Returns.bind (h.openFile_returns sec path) ?_
    rintro ⟨result, opened⟩ hopen
    cases result with
    | error message => exact .ok (Or.inl ⟨message, rfl, hopen⟩)
    | ok idx =>
      obtain ⟨inode, hinode⟩ := Opened.inode h hopen
      refine Returns.bind (writeFile_returns hinode data) ?_
      rintro ⟨result, stored⟩ hstored
      exact .ok (Or.inr ⟨idx, opened.inodes, hopen, hstored⟩)

/-! ### Removing and creating -/

/-- The outcome of an `rm`. -/
abbrev RmPost (path : String) (fs : Filesystem) : Except String Unit × VfsLock → Prop
  | (_, none) => False
  | (.error _, some fs') => fs' = fs
  | (.ok _, some fs') => ∃ idx inode, walk fs.inodes (pieces path '/') = some idx ∧ idx ≠ 0 ∧
      fs.inodes[idx]? = some inode ∧ inode.nodeType = .regularFile ∧
      fs'.inodes = fs.inodes.set idx inode.deleted

theorem Rooted.rm_returns (h : Rooted fs.inodes) (sec : Security) (path : String) :
    Returns (rm (some fs) sec path) (RmPost path fs) := by
  unfold rm
  split
  · exact .ok rfl
  · simp only
    cases hresolve : fs.resolve path with
    | none => exact .ok rfl
    | some idx =>
      rw [resolve_eq_walk] at hresolve
      obtain ⟨inode, hinode⟩ := h.walk_inode hresolve
      simp only [Filesystem.deleteFile, index_eq_ok_iff.mpr hinode]
      split
      · exact .ok rfl
      · rename_i hinvalid
        simp only [ok_bind]
        split
        · exact .ok rfl
        · rename_i htype
          exact .ok ⟨idx, inode, hresolve, fun hzero => hinvalid (Or.inl hzero), hinode,
            Classical.not_not.mp htype, rfl⟩

/-- An `rm` leaves everything as it is, or it succeeds and deletes a file. -/
theorem rm_cases {result : Except String Unit} {vfs : VfsLock} (h : RmPost path fs (result, vfs)) :
    vfs = some fs ∨ ∃ fs' idx inode, result = .ok () ∧ vfs = some fs' ∧
      walk fs.inodes (pieces path '/') = some idx ∧ idx ≠ 0 ∧ fs.inodes[idx]? = some inode ∧
      inode.nodeType = .regularFile ∧ fs'.inodes = fs.inodes.set idx inode.deleted := by
  cases vfs with
  | none => cases result <;> exact h.elim
  | some fs' =>
    cases result with
    | error message => exact Or.inl (congrArg some h)
    | ok =>
      obtain ⟨idx, inode, hdeleted⟩ := h
      exact Or.inr ⟨fs', idx, inode, rfl, rfl, hdeleted⟩

/-- The outcome of a `mkdir`. -/
abbrev MkdirPost (sec : Security) (path : String) (fs : Filesystem) :
    Except String Unit × VfsLock → Prop
  | (_, none) => False
  | (.error _, some fs') => fs' = fs
  | (.ok _, some fs') => ∃ parentPath name parent dir, splitPath path = .ok (parentPath, name) ∧
      walk fs.inodes (pieces parentPath '/') = some parent ∧ fs.inodes[parent]? = some dir ∧
      dir.nodeType = .directory ∧ findChild fs.inodes parent name = none ∧
      fs'.inodes = fs.inodes ++ [Filesystem.newInode sec name .directory parent]

theorem Rooted.mkdir_returns (h : Rooted fs.inodes) (sec : Security) (path : String) :
    Returns (mkdir (some fs) sec path) (MkdirPost sec path fs) := by
  unfold mkdir
  cases hsplit : splitPath path with
  | error message => exact .ok rfl
  | ok parts =>
    obtain ⟨parentPath, name⟩ := parts
    simp only
    split
    · exact .ok rfl
    · cases hparent : fs.resolve parentPath with
      | none => exact .ok rfl
      | some parent =>
        rw [resolve_eq_walk] at hparent
        obtain ⟨dir, hdir⟩ := h.walk_inode hparent
        simp only [index_eq_ok_iff.mpr hdir, ok_bind]
        split
        · exact .ok rfl
        · rename_i htype
          split
          · exact .ok rfl
          · split
            · exact .ok rfl
            · rename_i hsome
              exact .ok ⟨parentPath, name, parent, dir, hsplit, hparent, hdir,
                Classical.not_not.mp htype, by simpa using hsome, rfl⟩

/-- A `mkdir` leaves everything as it is, or it succeeds and adds a directory. -/
theorem mkdir_cases {result : Except String Unit} {vfs : VfsLock}
    (h : MkdirPost sec path fs (result, vfs)) :
    vfs = some fs ∨ ∃ fs' parentPath name parent dir, result = .ok () ∧ vfs = some fs' ∧
      splitPath path = .ok (parentPath, name) ∧
      walk fs.inodes (pieces parentPath '/') = some parent ∧ fs.inodes[parent]? = some dir ∧
      dir.nodeType = .directory ∧ findChild fs.inodes parent name = none ∧
      fs'.inodes = fs.inodes ++ [Filesystem.newInode sec name .directory parent] := by
  cases vfs with
  | none => cases result <;> exact h.elim
  | some fs' =>
    cases result with
    | error message => exact Or.inl (congrArg some h)
    | ok =>
      obtain ⟨parentPath, name, parent, dir, hadded⟩ := h
      exact Or.inr ⟨fs', parentPath, name, parent, dir, rfl, rfl, hadded⟩

/-! ### Runs of calls -/

/-- The calls that change the tree; `sec` is the state of the permission system then. -/
inductive Call
  | write (sec : Security) (path data : String)
  | rm (sec : Security) (path : String)
  | mkdir (sec : Security) (path : String)

def step (vfs : VfsLock) : Call → Exec VfsLock
  | .write sec path data => do
    let (_, vfs) ← Vfs.write vfs sec path data
    return vfs
  | .rm sec path => do
    let (_, vfs) ← Vfs.rm vfs sec path
    return vfs
  | .mkdir sec path => do
    let (_, vfs) ← Vfs.mkdir vfs sec path
    return vfs

/-- A call leaves a change of the tree. -/
def LockChange (inodes : List Inode) : VfsLock → Prop
  | none => False
  | some fs => Change inodes fs.inodes

/-- A `write` does nothing, adds a file with a name, or replaces the contents of one. -/
theorem write_cases {fs' : Filesystem} {result : Except String Unit} {motive : List Inode → Prop}
    (h : WritePost sec path data inodes (result, some fs')) (same : motive inodes)
    (added : ∀ new dir : Inode, inodes[new.parent]? = some dir → dir.nodeType = .directory →
      findChild inodes new.parent new.name = none → '/' ∉ new.name.toList → new.name ≠ "" →
      motive (inodes ++ [new]))
    (wrote : ∀ (idx : Nat) (inode : Inode), inodes[idx]? = some inode →
      inode.nodeType = .regularFile → motive (inodes.set idx { inode with data })) :
    motive fs'.inodes := by
  rcases h with ⟨-, -, heq⟩ | ⟨idx, opened, hopen, hstored⟩
  · rw [heq]
    exact same
  · generalize fs'.inodes = inodes' at hstored ⊢
    cases hopen with
    | found hfound =>
      cases hstored with
      | stored hinode htype => exact wrote idx _ hinode htype
      | discarded => exact same
      | failed => exact same
    | @created parent dir front name hpieces hfront hdir htype habsent =>
      obtain ⟨hne, hslash⟩ : name ≠ "" ∧ '/' ∉ name.toList :=
        of_mem_pieces (by rw [hpieces]; simp)
      -- Storing the contents in the new file is adding it with its contents.
      cases hstored with
      | stored hinode _ =>
        rw [List.getElem?_concat_length, Option.some.injEq] at hinode
        subst hinode
        rw [List.set_append_right _ _ le_rfl, Nat.sub_self]
        exact added _ dir hdir htype habsent hslash hne
      | discarded => exact added _ dir hdir htype habsent hslash hne
      | failed => exact added _ dir hdir htype habsent hslash hne

theorem Rooted.step_returns (h : Rooted fs.inodes) (call : Call) :
    Returns (step (some fs) call) (LockChange fs.inodes) := by
  cases call with
  | write sec path data =>
    refine Returns.bind (h.write_returns sec path data) ?_
    rintro ⟨result, vfs⟩ hpost
    cases vfs with
    | none => exact hpost.elim
    | some fs' =>
      refine .ok (write_cases hpost .same ?_ ?_)
      · intro new dir hdir htype habsent hslash _
        exact .added hdir htype habsent hslash
      · intro idx inode hinode htype
        exact .wrote hinode htype data
  | rm sec path =>
    refine Returns.bind (h.rm_returns sec path) ?_
    rintro ⟨result, vfs⟩ hpost
    rcases rm_cases hpost with rfl | ⟨fs', idx, inode, -, rfl, -, hne, hinode, htype, heq⟩
    · exact .ok .same
    · refine .ok ?_
      rw [LockChange, heq]
      exact .deleted hne hinode htype
  | mkdir sec path =>
    refine Returns.bind (h.mkdir_returns sec path) ?_
    rintro ⟨result, vfs⟩ hpost
    rcases mkdir_cases hpost with
      rfl | ⟨fs', parentPath, name, parent, dir, -, rfl, hsplit, -, hdir, htype, habsent, heq⟩
    · exact .ok .same
    · refine .ok ?_
      rw [LockChange, heq]
      exact .added hdir htype habsent (of_splitPath hsplit).1

/-! ### The tree at the start -/

theorem new_returns : Returns Filesystem.new fun fs => fs.inodes = Filesystem.initialInodes := by
  unfold Filesystem.new Filesystem.populateInitialCache
  refine foldlM_range_returns (fun _ (fs : Filesystem) => fs.inodes = Filesystem.initialInodes)
    _ ?_ rfl
  intro i hi fs hfs
  -- The loop fills the cache only; the inodes are those of the start in every round.
  obtain ⟨built, hbuilt⟩ := Rooted.buildPath_returns fs (hfs ▸ Rooted.initial) (hfs ▸ hi)
  rw [hbuilt, ok_bind]
  split
  · exact .ok hfs
  · exact .ok hfs

/-- The tree of a lock that was initialised. -/
def LockRooted : VfsLock → Prop
  | none => False
  | some fs => Rooted fs.inodes

theorem init_returns : Returns init fun vfs =>
    ∃ fs, vfs = some fs ∧ fs.inodes = Filesystem.initialInodes :=
  Returns.bind new_returns fun fs hfs => .ok ⟨fs, rfl, hfs⟩

theorem step_lockRooted (vfs : VfsLock) (call : Call) (h : LockRooted vfs) :
    Returns (step vfs call) LockRooted := by
  cases vfs with
  | none => exact h.elim
  | some fs =>
    refine (Rooted.step_returns h call).mono fun vfs hchange => ?_
    cases vfs with
    | none => exact hchange
    | some fs' => exact Rooted.change h hchange

end MerlionKernel.Vfs
