import MerlionKernel.Tmpfs.Model

/-!
# Files of a new mount

`mount` of `tmpfs.rs` takes any string and compares it with the paths of the other mounts as it
stands, while a file is looked for in the mount whose path, without slashes in front, is the first
component of the file's path. So a mount can be used exactly if its path is one component, and if
no older mount has that component for its path.
-/

namespace MerlionKernel.Tmpfs

open Rust

variable {state state' : TmpfsState} {path f : String} {tick : UInt64} {data : Buffer}

/-! ### The components of a path -/

theorem split_of_notMem (hf : '/' ∉ f.toList) : split f '/' = [f] := by
  simp [split, List.splitOn_eq_singleton hf]

/-- The components of a file in a mount. -/
theorem split_file (path : String) (hf : '/' ∉ f.toList) :
    split (trimStartMatches (path ++ "/" ++ f) '/') '/' =
      if trimStartMatches path '/' = "" then [f]
      else split (trimStartMatches path '/') '/' ++ [f] := by
  have hchars : (path ++ "/" ++ f).toList = path.toList ++ '/' :: f.toList := by simp
  have hempty : trimStartMatches path '/' = "" ↔ path.toList.dropWhile (· == '/') = [] := by
    rw [trimStartMatches, ← String.toList_inj, String.toList_ofList, String.toList_empty]
  rw [trimStartMatches, hchars, List.dropWhile_append]
  by_cases h : path.toList.dropWhile (· == '/') = []
  · have htrim : ('/' :: f.toList).dropWhile (· == '/') = f.toList := by
      rw [List.dropWhile_cons_of_pos (by rfl)]
      cases hlist : f.toList with
      | nil => rfl
      | cons c cs =>
        refine List.dropWhile_cons_of_neg ?_
        rintro hc
        exact hf (hlist ▸ List.mem_cons.mpr (.inl (eq_of_beq hc).symm))
    rw [if_pos (List.isEmpty_iff.mpr h), if_pos (hempty.mpr h), htrim, String.ofList_toList]
    exact split_of_notMem hf
  · rw [if_neg (mt List.isEmpty_iff.mp h), if_neg (mt hempty.mp h), ← split_of_notMem hf,
      ← split_append]
    congr 1
    rw [trimStartMatches, ← String.toList_inj]
    simp

/-- The first component of a text is the text only if it is the only one. -/
theorem head?_split_eq_iff {s : String} :
    (split s '/').head? = some s ↔ '/' ∉ s.toList := by
  constructor
  · intro h hslash
    have hmem := List.mem_of_mem_head? h
    obtain ⟨piece, hpiece, heq⟩ := List.mem_map.mp hmem
    have hnot := notMem_of_mem_splitOn hpiece
    rw [← heq, String.toList_ofList] at hslash
    exact hnot hslash
  · intro h
    rw [split_of_notMem h]
    rfl

/-! ### What a call leaves alone -/

theorem getElem?_of_commit {β : Type} {idx : Nat} {m : TmpfsMount} {outcome : Try (β × TmpfsDir)}
    {result : Except String β} (h : commit state idx m outcome = .ok (result, state')) {j : Nat}
    (hj : j ≠ idx) : state'.mounts[j]? = state.mounts[j]? := by
  unfold commit at h
  split at h
  · cases h
    exact List.getElem?_set_ne (Ne.symm hj)
  · cases h
    rfl
  · cases h

/-- A file is created in the mount that was found. -/
theorem of_create_ok (h : create state tick path data = .ok (.ok (), state')) :
    ∃ idx, findMount state path = some idx ∧ (splitPath path).2 ≠ [] ∧
      ∀ j, j ≠ idx → state'.mounts[j]? = state.mounts[j]? := by
  unfold create at h
  cases hfind : findMount state path with
  | none =>
    simp only [hfind] at h
    cases h
  | some idx =>
    simp only [hfind] at h
    obtain ⟨m, -, h⟩ := bind_eq_ok_iff.mp h
    obtain ⟨current, -, h⟩ := bind_eq_ok_iff.mp h
    obtain ⟨wanted, -, h⟩ := bind_eq_ok_iff.mp h
    split at h
    · cases h
    · obtain ⟨count, -, h⟩ := bind_eq_ok_iff.mp h
      split at h
      · cases h
      · split at h
        · cases h
        · next dirParts fileName hparts =>
          obtain ⟨⟨inode, m'⟩, -, h⟩ := bind_eq_ok_iff.mp h
          refine ⟨idx, rfl, ?_, fun j hj => ?_⟩
          · rintro hnil
            rw [hnil] at hparts
            cases hparts
          · rw [getElem?_of_commit h hj]
            exact List.getElem?_set_ne (Ne.symm hj)

/-! ### The new mount -/

/-- The file is created in the last mount, which is the new one, and is read back. -/
def Serves (state : TmpfsState) (path : String) (maxSize : UInt64) (f : String) (data : Buffer)
    (tick tick' : UInt64) : Prop :=
  ∃ s m s', create (mount state path maxSize).2 tick (path ++ "/" ++ f) data = .ok (.ok (), s) ∧
    s.mounts = state.mounts ++ [m] ∧ m.path = path ∧
    (∃ file ∈ m.root.files, file.name = f ∧ file.data = data) ∧
    read s tick' (path ++ "/" ++ f) = .ok (.ok data, s')

/-- The mount is found under its path, which no older mount has. -/
def Addressed (state : TmpfsState) (path : String) : Prop :=
  trimStartMatches path '/' ≠ "" ∧ '/' ∉ (trimStartMatches path '/').toList ∧
    ∀ m ∈ state.mounts, trimStartMatches m.path '/' ≠ trimStartMatches path '/'

theorem findMount_concat {m : TmpfsMount} (hf : '/' ∉ f.toList)
    (haddress : Addressed state m.path) :
    findMount { mounts := state.mounts ++ [m] } (m.path ++ "/" ++ f) =
      some state.mounts.length := by
  obtain ⟨hne, hslash, hnew⟩ := haddress
  have hsplit := split_file m.path hf
  rw [if_neg hne, split_of_notMem hslash] at hsplit
  unfold findMount
  rw [hsplit]
  show (state.mounts ++ [m]).findIdx? (fun m' =>
    decide (trimStartMatches m'.path '/' = trimStartMatches m.path '/')) = _
  rw [List.findIdx?_append,
    List.findIdx?_eq_none_iff.mpr fun m' hm' => decide_eq_false (hnew m' hm')]
  simp

theorem splitLast_file (hf : '/' ∉ f.toList) (hne : trimStartMatches path '/' ≠ "")
    (hslash : '/' ∉ (trimStartMatches path '/').toList) :
    splitLast (splitPath (path ++ "/" ++ f)).2 = some ([], f) := by
  have hsplit := split_file path hf
  rw [if_neg hne, split_of_notMem hslash] at hsplit
  rw [splitPath, hsplit]
  rfl

theorem set_last (mounts : List TmpfsMount) (m m' : TmpfsMount) :
    (mounts ++ [m]).set mounts.length m' = mounts ++ [m'] := by
  rw [List.set_append_right _ _ le_rfl, Nat.sub_self]
  rfl

/-- A file in a new mount that is found under its path. -/
theorem create_in_new {maxSize : UInt64} (hdata : data.1.length ≤ maxSize.toNat)
    (hf : '/' ∉ f.toList) (haddress : Addressed state path) (tick : UInt64) :
    create { mounts := state.mounts ++ [.new path maxSize] } tick (path ++ "/" ++ f) data =
      .ok (.ok (), { mounts := state.mounts ++
        [{ path, maxSize, inodeCounter := 2
           root := { TmpfsDir.new "/" with files :=
            [{ name := f, data, createdTick := tick, modifiedTick := tick
               accessedTick := tick }] } }] }) := by
  have hfind := findMount_concat (m := .new path maxSize) hf haddress
  have hsize : (TmpfsMount.new path maxSize).currentSize = .ok 0 := rfl
  have hcount : (TmpfsMount.new path maxSize).fileCount = .ok 0 := rfl
  have hinode : (TmpfsMount.new path maxSize).nextInode =
      .ok (1, { TmpfsMount.new path maxSize with inodeCounter := 2 }) := rfl
  have hlen : 0 + data.1.length < 2 ^ 64 := by
    have hlt := data.2
    omega
  have hfits : ¬ 0 + data.1.length > (TmpfsMount.new path maxSize).maxSize.toNat := by
    rw [Nat.zero_add]
    exact not_lt.mpr hdata
  have hfew : ¬ 0 ≥ maxFiles := by decide
  unfold create
  simp only [show (TmpfsMount.new path maxSize).path = path from rfl] at hfind
  simp only [hfind, index_append_cons, ok_bind, hsize, u64_eq_ok hlen, if_neg hfits, hcount,
    if_neg hfew, splitLast_file hf haddress.1 haddress.2.1, hinode, set_last]
  show commit _ _ _ (.ok ((), _)) = _
  rw [commit, set_last]
  rfl

/-- A file that is alone in the last mount is read. -/
theorem read_in_last (m : TmpfsMount) (file : TmpfsFile) (hf : '/' ∉ f.toList)
    (haddress : Addressed state m.path) (hfiles : m.root.files = [file]) (hname : file.name = f)
    (tick : UInt64) :
    ∃ s, read { mounts := state.mounts ++ [m] } tick (m.path ++ "/" ++ f) =
      .ok (.ok file.data, s) := by
  have hfile : m.root.findFile f = some 0 := by simp [TmpfsDir.findFile, hfiles, hname]
  have hindex : lift (index m.root.files 0) = .ok file := by rw [hfiles]; rfl
  unfold read onEntry
  simp only [findMount_concat hf haddress, index_append_cons, ok_bind,
    splitLast_file hf haddress.1 haddress.2.1, TmpfsDir.navigateMut, TmpfsDir.onFile, hfile, hindex,
    pure_eq_ok, commit]
  exact ⟨_, rfl⟩

/-- After a mount that returns `Ok`, a file with a plain name and data within the limit can be
created in the new mount and read back exactly if the mount is found under its path. -/
theorem mount_serves_iff {maxSize : UInt64} (hmount : (mount state path maxSize).1 = .ok ())
    (hdata : data.1.length ≤ maxSize.toNat) (hf : '/' ∉ f.toList) (tick tick' : UInt64) :
    Serves state path maxSize f data tick tick' ↔ Addressed state path := by
  have hmounted :
      (mount state path maxSize).2 = { mounts := state.mounts ++ [.new path maxSize] } := by
    unfold mount at hmount ⊢
    split_ifs at hmount ⊢
    rfl
  unfold Serves
  rw [hmounted]
  constructor
  · rintro ⟨s, m, s', hcreate, hmounts, -, ⟨file, hfile, -⟩, -⟩
    obtain ⟨idx, hfind, hparts, hframe⟩ := of_create_ok hcreate
    have hlast : idx = state.mounts.length := by
      by_contra hne
      have hsame := hframe state.mounts.length (Ne.symm hne)
      rw [hmounts, List.getElem?_concat_length, List.getElem?_concat_length] at hsame
      cases hsame
      cases hfile
    subst hlast
    have hsplit := split_file path hf
    by_cases hempty : trimStartMatches path '/' = ""
    · rw [if_pos hempty] at hsplit
      rw [splitPath, hsplit] at hparts
      exact (hparts rfl).elim
    · rw [if_neg hempty] at hsplit
      obtain ⟨first, rest, hcomponents⟩ : ∃ first rest,
          split (trimStartMatches path '/') '/' = first :: rest := by
        exact List.exists_cons_of_ne_nil (mt List.map_eq_nil_iff.mp (List.splitOn_ne_nil _ _))
      unfold findMount at hfind
      rw [hsplit, hcomponents] at hfind
      obtain ⟨hlt, hname, hbefore⟩ := List.findIdx?_eq_some_iff_getElem.mp hfind
      have hfirst : trimStartMatches (TmpfsMount.new path maxSize).path '/' = first := by
        simpa using hname
      change trimStartMatches path '/' = first at hfirst
      refine ⟨hempty, head?_split_eq_iff.mp ?_, fun m hm hsame => ?_⟩
      · rw [hcomponents, hfirst]
        rfl
      · obtain ⟨j, hj, rfl⟩ := List.getElem_of_mem hm
        have hother := hbefore j hj
        rw [List.getElem_append_left hj] at hother
        simp [hsame, hfirst] at hother
  · intro haddress
    have hcreate := create_in_new hdata hf haddress tick
    obtain ⟨s', hread⟩ := read_in_last ⟨path, ⟨"/", [_], []⟩, maxSize, 2⟩
      ⟨f, data, tick, tick, tick⟩ hf haddress rfl rfl tick'
    exact ⟨_, _, s', hcreate, rfl, rfl, ⟨_, List.mem_singleton_self _, rfl, rfl⟩, hread⟩

theorem mount_serves_iff_tmp :
    Serves .empty "/tmp" 10 "a" ⟨[1], by decide⟩ 0 0 ↔ Addressed .empty "/tmp" :=
  mount_serves_iff rfl (by decide) (by decide) 0 0

/-- A mount below a directory cannot be used. -/
theorem mount_nested_unserved :
    (mount .empty "/mnt/a" 10).1 = .ok () ∧
      ¬ Serves .empty "/mnt/a" 10 "f" ⟨[1], by decide⟩ 0 0 := by
  refine ⟨rfl, ?_⟩
  rintro ⟨s, m, s', hcreate, -⟩
  have herror : create (mount .empty "/mnt/a" 10).2 0 ("/mnt/a" ++ "/" ++ "f") ⟨[1], by decide⟩ =
      .ok (.error "no tmpfs mount for path", (mount .empty "/mnt/a" 10).2) :=
    rfl
  cases herror.symm.trans hcreate

end MerlionKernel.Tmpfs
