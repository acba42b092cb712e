import MerlionKernel.Vfs.Store

/-!
# Failed writes

`write` makes the file before it looks at the size of the data. When the data is too large for a
file that was not there, the call fails and leaves an empty file behind. Every other failure of
`write`, and every failure of `mkdir`, leaves the inodes as they were.
-/

namespace MerlionKernel.Vfs

open Rust Theory

variable {fs : Filesystem} {sec : Security} {path data : String}

/-- The path leads nowhere, and a file can be made there. -/
def Creates (fs : Filesystem) (path : String) : Prop :=
  fs.resolve path = none ∧ fs.inodes.length < maxInodes ∧
    ∃ parentPath name parent dir, splitPath path = .ok (parentPath, name) ∧
      fs.resolve parentPath = some parent ∧ fs.inodes[parent]? = some dir ∧
      dir.nodeType = .directory

theorem creates_iff {parentPath name : String} {parent : Nat} {dir : Inode}
    (hresolve : fs.resolve path = none) (hsplit : splitPath path = .ok (parentPath, name))
    (hparent : fs.resolve parentPath = some parent) (hdir : fs.inodes[parent]? = some dir) :
    Creates fs path ↔ dir.nodeType = .directory ∧ fs.inodes.length < maxInodes := by
  constructor
  · rintro ⟨-, hroom, parentPath', name', parent', dir', hsplit', hparent', hdir', htype⟩
    cases hsplit.symm.trans hsplit'
    cases hparent.symm.trans hparent'
    cases hdir.symm.trans hdir'
    exact ⟨htype, hroom⟩
  · rintro ⟨htype, hroom⟩
    exact ⟨hresolve, hroom, parentPath, name, parent, dir, hsplit, hparent, hdir, htype⟩

/-- Opening a file appends an inode if one can be made, and else finds what is there. -/
theorem Rooted.openFile_cases (h : Rooted fs.inodes) (sec : Security) (path : String) :
    Returns (fs.openFile sec path) fun (result, opened) =>
      Creates fs path ∧ result = .ok fs.inodes.length ∧
          (∃ new : Inode, new.nodeType = .regularFile ∧ opened.inodes = fs.inodes ++ [new]) ∨
        ¬ Creates fs path ∧ opened.inodes = fs.inodes ∧
          ∀ idx, result = .ok idx ↔ fs.resolve path = some idx := by
  obtain ⟨⟨result, opened⟩, hopen, hpost⟩ := h.openFile_returns sec path
  refine ⟨(result, opened), hopen, ?_⟩
  dsimp only
  unfold Filesystem.openFile at hopen
  cases hresolve : fs.resolve path with
  | some idx =>
    simp only [hresolve, pure_eq_ok, Except.ok.injEq, Prod.mk.injEq] at hopen
    obtain ⟨rfl, rfl⟩ := hopen
    refine .inr ⟨fun hcreates => ?_, rfl, by simp⟩
    cases hcreates.1.symm.trans hresolve
  | none =>
    cases hsplit : splitPath path with
    | error message =>
      simp only [hresolve, hsplit, pure_eq_ok, Except.ok.injEq, Prod.mk.injEq] at hopen
      obtain ⟨rfl, rfl⟩ := hopen
      refine .inr ⟨?_, rfl, by simp⟩
      rintro ⟨-, -, parentPath, name, parent, dir, hparts, -⟩
      cases hsplit.symm.trans hparts
    | ok parts =>
      obtain ⟨parentPath, name⟩ := parts
      cases hparent : fs.resolve parentPath with
      | none =>
        simp only [hresolve, hsplit, hparent, pure_eq_ok, Except.ok.injEq, Prod.mk.injEq] at hopen
        obtain ⟨rfl, rfl⟩ := hopen
        refine .inr ⟨?_, rfl, by simp⟩
        rintro ⟨-, -, parentPath', name', parent, dir, hparts, hdir, -⟩
        cases hsplit.symm.trans hparts
        cases hparent.symm.trans hdir
      | some parent =>
        obtain ⟨dir, hdir⟩ := h.walk_inode ((resolve_eq_walk fs parentPath).symm.trans hparent)
        rw [creates_iff hresolve hsplit hparent hdir]
        simp only [hresolve, hsplit, hparent, Filesystem.createFile, index_eq_ok_iff.mpr hdir,
          ok_bind] at hopen
        by_cases htype : dir.nodeType = .directory
        · by_cases hroom : fs.inodes.length < maxInodes
          · rw [if_neg (not_not.mpr htype), if_neg (not_le.mpr hroom)] at hopen
            cases hchild : findChild fs.inodes parent name with
            | some i =>
              -- The file would have been found.
              simp only [hchild, pure_eq_ok, Except.ok.injEq, Prod.mk.injEq] at hopen
              obtain ⟨rfl, rfl⟩ := hopen
              have hwalk := Opened.walk_eq h hpost
              rw [resolve_eq_walk, hwalk] at hresolve
              cases hresolve
            | none =>
              simp only [hchild] at hopen
              obtain ⟨built, -, hopen⟩ := bind_eq_ok_iff.mp hopen
              cases hopen
              exact .inl ⟨⟨htype, hroom⟩, rfl, _, rfl, cacheInsert_inodes _ _ _⟩
          · rw [if_neg (not_not.mpr htype), if_pos (not_lt.mp hroom)] at hopen
            cases hopen
            exact .inr ⟨fun hcan => hroom hcan.2, rfl, by simp⟩
        · rw [if_pos htype] at hopen
          cases hopen
          exact .inr ⟨fun hcan => htype hcan.1, rfl, by simp⟩

/-- Writing to a file succeeds for a regular file and data that fits, and for a device. -/
theorem writeFile_ok_iff (data : String) {idx : Nat} {inode : Inode}
    (hinode : fs.inodes[idx]? = some inode) :
    Returns (fs.writeFile idx data) fun (result, stored) =>
      (result = .ok () ↔ inode.nodeType = .regularFile ∧ (asBytes data).length ≤ maxFileSize ∨
        inode.nodeType = .devNull ∨ inode.nodeType = .devSerial) ∧
      (result ≠ .ok () → stored = fs) := by
  simp only [Filesystem.writeFile, index_eq_ok_iff.mpr hinode, ok_bind]
  split
  · next htype =>
    split
    · next hlarge => exact .ok ⟨by simp [htype, hlarge], fun _ => rfl⟩
    · next hlarge => exact .ok ⟨by simp [htype, not_lt.mp hlarge], fun hne => (hne rfl).elim⟩
  · next htype => exact .ok ⟨by simp [htype], fun _ => rfl⟩
  · next htype => exact .ok ⟨by simp [htype], fun _ => rfl⟩
  · next hregular hnull hserial =>
    refine .ok ⟨iff_of_false (fun h => by cases h) ?_, fun _ => rfl⟩
    rintro (⟨htype, -⟩ | htype | htype)
    · exact hregular htype
    · exact hnull htype
    · exact hserial htype

/-- A write to the path is accepted, if the data is not too large. -/
def Accepts (fs : Filesystem) (sec : Security) (path : String) : Prop :=
  sec.canWrite path = true ∧ (Creates fs path ∨ ∃ idx inode, fs.resolve path = some idx ∧
    fs.inodes[idx]? = some inode ∧
    (inode.nodeType = .regularFile ∨ inode.nodeType = .devNull ∨ inode.nodeType = .devSerial))

/-- What a write does when it fails, and when that is, for data that fits. -/
theorem Rooted.write_cases (h : Rooted fs.inodes) (sec : Security) (path data : String) :
    Returns (write (some fs) sec path data) fun (result, vfs) => ∃ fs', vfs = some fs' ∧
      ((asBytes data).length ≤ maxFileSize → (result = .ok () ↔ Accepts fs sec path)) ∧
      (result ≠ .ok () → (fs'.inodes ≠ fs.inodes ↔ sec.canWrite path = true ∧ Creates fs path)) ∧
      (sec.canWrite path = true → Creates fs path → maxFileSize < (asBytes data).length →
        result ≠ .ok ()) := by
  unfold write
  by_cases hcan : sec.canWrite path = true
  · rw [if_neg (not_not.mpr hcan)]
    obtain ⟨⟨result, opened⟩, hopen, hcases⟩ := h.openFile_cases sec path
    simp only [hopen, ok_bind]
    rcases hcases with ⟨hcreates, rfl, new, hnew, hinodes⟩ | ⟨hnot, hinodes, hresolve⟩
    · have hlast : opened.inodes[fs.inodes.length]? = some new := by simp [hinodes]
      obtain ⟨⟨written, stored⟩, hwrite, hok, hkeep⟩ := writeFile_ok_iff data hlast
      simp only [hwrite, ok_bind]
      refine .ok ⟨stored, rfl, fun hfits => ?_, fun hfail => ?_, fun _ _ hlarge hwritten => ?_⟩
      · exact iff_of_true (hok.mpr (.inl ⟨hnew, hfits⟩)) ⟨hcan, .inl hcreates⟩
      · refine iff_of_true ?_ ⟨hcan, hcreates⟩
        rw [hkeep hfail, hinodes]
        simp
      · have hcontra := hok.mp hwritten
        rw [hnew] at hcontra
        rcases hcontra with ⟨-, hfits⟩ | hcontra | hcontra
        · exact absurd hlarge (not_lt.mpr hfits)
        · cases hcontra
        · cases hcontra
    · cases result with
      | error message =>
        refine .ok ⟨opened, rfl, fun _ => ?_, fun _ => ?_, fun _ hcreates => (hnot hcreates).elim⟩
        · refine iff_of_false nofun ?_
          rintro ⟨-, hcreates | ⟨idx, inode, hidx, -⟩⟩
          · exact hnot hcreates
          · cases (hresolve idx).mpr hidx
        · exact iff_of_false (not_not.mpr hinodes) fun hcreates => hnot hcreates.2
      | ok idx =>
        have hidx := (hresolve idx).mp rfl
        obtain ⟨inode, hinode⟩ := h.walk_inode ((resolve_eq_walk fs path).symm.trans hidx)
        obtain ⟨⟨written, stored⟩, hwrite, hok, hkeep⟩ :=
          writeFile_ok_iff data (hinodes ▸ hinode)
        simp only [hwrite, ok_bind]
        refine .ok ⟨stored, rfl, fun hfits => ?_, fun hfail => ?_, fun _ hcreates =>
          (hnot hcreates).elim⟩
        · rw [hok]
          constructor
          · intro htype
            exact ⟨hcan, .inr ⟨idx, inode, hidx, hinode, htype.imp_left And.left⟩⟩
          · rintro ⟨-, hcreates | ⟨idx', inode', hidx', hinode', htype⟩⟩
            · exact (hnot hcreates).elim
            · cases hidx.symm.trans hidx'
              cases hinode.symm.trans hinode'
              exact htype.imp_left fun hregular => ⟨hregular, hfits⟩
        · rw [hkeep hfail]
          exact iff_of_false (not_not.mpr hinodes) fun hcreates => hnot hcreates.2
  · rw [if_pos hcan]
    refine .ok ⟨fs, rfl, fun _ => ?_, fun _ => ?_, fun htrue => (hcan htrue).elim⟩
    · exact iff_of_false nofun fun haccepts => hcan haccepts.1
    · exact iff_of_false (not_not.mpr rfl) fun hcreates => hcan hcreates.1

/-! ### Atomic calls -/

/-- If the call failed, the inodes are as before. -/
def Atomic (fs : Filesystem) (outcome : Exec (Except String Unit × VfsLock)) : Prop :=
  ∀ message vfs, outcome = .ok (.error message, vfs) →
    ∃ fs', vfs = some fs' ∧ fs'.inodes = fs.inodes

theorem Rooted.mkdir_atomic (h : Rooted fs.inodes) (sec : Security) (path : String) :
    Atomic fs (mkdir (some fs) sec path) := by
  intro message vfs hmkdir
  have hpost := (h.mkdir_returns sec path).elim hmkdir
  cases vfs with
  | none => exact hpost.elim
  | some fs' => exact ⟨fs', rfl, congrArg Filesystem.inodes hpost⟩

/-- In every file system that is reached, `mkdir` is atomic, and `write` is unless it makes a
file for data that is too large. -/
theorem write_mkdir_atomic_iff {fs : Filesystem} (hreached : Reached (some fs)) (sec : Security)
    (path data : String) :
    Atomic fs (write (some fs) sec path data) ∧ Atomic fs (mkdir (some fs) sec path) ↔
      ¬ (sec.canWrite path = true ∧ Creates fs path ∧ maxFileSize < (asBytes data).length) := by
  have hrooted := hreached.rooted
  obtain ⟨⟨result, vfs⟩, hwrite, fs', rfl, hfits, hchanged, hlarge⟩ :=
    hrooted.write_cases sec path data
  rw [and_iff_left (hrooted.mkdir_atomic sec path)]
  constructor
  · rintro hatomic ⟨hcan, hcreates, hsize⟩
    have hfail := hlarge hcan hcreates hsize
    cases result with
    | ok done => exact hfail rfl
    | error message =>
      obtain ⟨fs₁, hfs₁, hsame⟩ := hatomic message _ hwrite
      cases hfs₁
      exact (hchanged hfail).mpr ⟨hcan, hcreates⟩ hsame
  · intro hcond message vfs hfailed
    cases hwrite.symm.trans hfailed
    refine ⟨fs', rfl, not_not.mp fun hne => ?_⟩
    obtain ⟨hcan, hcreates⟩ := (hchanged nofun).mp hne
    refine hcond ⟨hcan, hcreates, not_le.mp fun hle => ?_⟩
    cases (hfits hle).mpr ⟨hcan, .inl hcreates⟩

/-- Data of 4097 bytes. -/
def tooLarge : String := String.ofList (List.replicate 4097 'x')

theorem reached_storedFs : Reached (some storedFs) :=
  ⟨some freshFs, [.write ⟨Security.init, []⟩ "/tmp/a" "x"], by decide +kernel, by decide +kernel⟩

/-- Where the file exists, a write of too much data fails, and so does `mkdir`. -/
theorem write_mkdir_atomic_iff_stored :
    exists_ (some storedFs) "/tmp/a" = true ∧
    mkdir (some storedFs) ⟨Security.init, []⟩ "/tmp/a" =
      .ok (.error "directory already exists", some storedFs) ∧
    (Atomic storedFs (write (some storedFs) ⟨Security.init, []⟩ "/tmp/a" tooLarge) ∧
        Atomic storedFs (mkdir (some storedFs) ⟨Security.init, []⟩ "/tmp/a") ↔
      ¬ (Security.canWrite ⟨Security.init, []⟩ "/tmp/a" = true ∧ Creates storedFs "/tmp/a" ∧
        maxFileSize < (asBytes tooLarge).length)) :=
  ⟨by decide +kernel, by decide +kernel, write_mkdir_atomic_iff reached_storedFs _ _ _⟩

/-- A write of too much data to a new file fails, and leaves an empty file behind. -/
theorem write_not_atomic :
    ¬ Atomic freshFs (write (some freshFs) ⟨Security.init, []⟩ "/tmp/a" tooLarge) := by
  intro hatomic
  have hreached : Reached (some freshFs) := ⟨some freshFs, [], by decide +kernel, rfl⟩
  have hcreates : Creates freshFs "/tmp/a" := by
    refine ⟨by decide +kernel, by decide +kernel, "/tmp", "a", 13, ?_⟩
    exact ⟨_, by decide +kernel, by decide +kernel, List.getElem?_eq_getElem (by decide +kernel),
      by decide +kernel⟩
  obtain ⟨⟨result, vfs⟩, hwrite, fs', rfl, -, hchanged, hlarge⟩ :=
    hreached.rooted.write_cases ⟨Security.init, []⟩ "/tmp/a" tooLarge
  have hsize : ∀ n, (asBytes (String.ofList (List.replicate n 'x'))).length = n := by
    intro n
    rw [asBytes_ofList]
    induction n with
    | zero => rfl
    | succ n ih => rw [List.replicate_succ, utf8_cons, List.length_append, ih, Nat.add_comm]; rfl
  have hfail := hlarge (by decide +kernel) hcreates ((hsize 4097).symm ▸ Nat.lt_succ_self 4096)
  cases result with
  | ok done => exact hfail rfl
  | error message =>
    obtain ⟨fs₁, hfs₁, hsame⟩ := hatomic message _ hwrite
    cases hfs₁
    exact (hchanged hfail).mpr ⟨by decide +kernel, hcreates⟩ hsame

end MerlionKernel.Vfs
