import MerlionKernel.Pipefs.Model
import MerlionKernel.Vfs.Atomic

/-!
# Creating pipes

`create_pipe` of `pipefs.rs` takes a slot of the pipe table and then two descriptors of `fd.rs`;
`named_pipe` takes a slot and then writes a marker file. When a later step fails, a descriptor that
was opened is closed again, but the slot is kept: no end of the pipe was handed out, so nothing will
ever free it.
-/

namespace MerlionKernel.Fd

/-- `MAX_FDS`. -/
def maxFds : Nat := 32

inductive FdKind
  | vfsFile
  | serial
  | null
  deriving DecidableEq

inductive FdEntry
  | free
  | open (path : String) (kind : FdKind) (offset : Nat)
  deriving DecidableEq

/-- `FD_TABLE`. -/
abbrev FdTable := { entries : List FdEntry // entries.length = maxFds }

/-- The table with another entry at `i`. -/
def FdTable.set (table : FdTable) (i : Nat) (entry : FdEntry) : FdTable :=
  ⟨table.1.set i entry, List.length_set.trans table.2⟩

/-- Descriptor `i` can be handed out. -/
def FdTable.Free (table : FdTable) (i : Nat) : Prop :=
  i ∈ List.range' 3 (maxFds - 3) ∧ table.1[i]? = some .free

def kindOf (path : String) : FdKind :=
  if path = "/dev/null" then .null else if path = "/dev/serial" then .serial else .vfsFile

/-- `open`: the first free descriptor from 3 on. -/
def open_ (table : FdTable) (path : String) : Except String Nat × FdTable :=
  match (List.range' 3 (maxFds - 3)).find? fun i => decide (table.1[i]? = some .free) with
  | some i => (.ok i, table.set i (.open path (kindOf path) 0))
  | none => (.error "too many open files", table)

/-- `close`. -/
def close (table : FdTable) (fd : Nat) : Except String Unit × FdTable :=
  if maxFds ≤ fd then (.error "invalid fd", table)
  else if table.1[fd]? = some .free then (.error "fd not open", table)
  else (.ok (), table.set fd .free)

/-- Opening fails if no descriptor is free; else one is taken, and closing it undoes that. -/
theorem open_cases (table : FdTable) (path : String) :
    (open_ table path = (.error "too many open files", table) ∧ ∀ i, ¬ table.Free i) ∨
      ∃ i table', open_ table path = (.ok i, table') ∧ table.Free i ∧
        (close table' i).2 = table ∧ ∀ j, table'.Free j ↔ table.Free j ∧ j ≠ i := by
  unfold open_
  cases hfind : (List.range' 3 (maxFds - 3)).find? fun i => decide (table.1[i]? = some .free) with
  | none =>
    refine .inl ⟨rfl, fun i hfree => ?_⟩
    have hnone := List.find?_eq_none.mp hfind i hfree.1
    exact hnone (decide_eq_true hfree.2)
  | some i =>
    have hfree : table.1[i]? = some .free := by simpa using List.find?_some hfind
    have hlt := (List.getElem?_eq_some_iff.mp hfree).1
    refine .inr ⟨i, _, rfl, ⟨List.mem_of_find?_eq_some hfind, hfree⟩, ?_, fun j => ?_⟩
    · have hopen : (table.set i (.open path (kindOf path) 0)).1[i]? =
          some (.open path (kindOf path) 0) := List.getElem?_set_self hlt
      rw [close, if_neg (not_le.mpr (table.2 ▸ hlt)), if_neg (by rw [hopen]; nofun)]
      apply Subtype.ext
      show (table.1.set i _).set i .free = table.1
      rw [List.set_set, ← (List.getElem?_eq_some_iff.mp hfree).2, List.set_getElem_self]
    · by_cases hj : j = i
      · subst hj
        refine iff_of_false (fun hfree' => ?_) fun h => h.2 rfl
        have hcontra := (List.getElem?_set_self hlt).symm.trans hfree'.2
        cases hcontra
      · rw [and_iff_left hj, FdTable.Free, FdTable.Free, FdTable.set,
          List.getElem?_set_ne (Ne.symm hj)]

end MerlionKernel.Fd

namespace MerlionKernel.Pipefs

open Rust Fd

/-- `create_pipe`. -/
def createPipe (pipes : Option PipeTable) (fds : FdTable) :
    Except String (Nat × Nat) × Option PipeTable × FdTable :=
  match pipes with
  | none => (.error "pipefs not initialized", none, fds)
  | some table =>
    match table.alloc with
    | (none, table) => (.error "too many pipes", some table, fds)
    | (some pipeId, table) =>
      match open_ fds s!"/dev/pipe/{pipeId}/r" with
      | (.error _, fds) => (.error "cannot allocate read fd", some table, fds)
      | (.ok readFd, fds) =>
        match open_ fds s!"/dev/pipe/{pipeId}/w" with
        | (.error e, fds) => (.error e, some table, (close fds readFd).2)
        | (.ok writeFd, fds) => (.ok (readFd, writeFd), some table, fds)

/-- The text of a marker file. -/
def marker (pipeId : Nat) : String := s!"\x7bfifo:pipe_id={pipeId}\x7d"

/-- `named_pipe`. -/
def namedPipe (pipes : Option PipeTable) (vfs : Vfs.VfsLock) (sec : Security) (path : String) :
    Exec (Except String Nat × Option PipeTable × Vfs.VfsLock) :=
  match pipes with
  | none => return (.error "pipefs not initialized", none, vfs)
  | some table =>
    match table.alloc with
    | (none, table) => return (.error "too many pipes", some table, vfs)
    | (some pipeId, table) => do
      match ← Vfs.write vfs sec path (marker pipeId) with
      | (.error e, vfs) => return (.error e, some table, vfs)
      | (.ok (), vfs) => return (.ok pipeId, some table, vfs)

/-! ### Slots -/

/-- A slot of the table is free. -/
def HasFree (pipes : Option PipeTable) : Prop := ∃ table, pipes = some table ∧ .free ∈ table.slots

/-- The table gives out a slot if one is free, which changes it. -/
theorem PipeTable.alloc_cases (table : PipeTable) :
    (table.alloc = (none, table) ∧ .free ∉ table.slots) ∨
      ∃ id table', table.alloc = (some id, table') ∧ table' ≠ table ∧ .free ∈ table.slots ∧
        id < table.slots.length := by
  unfold alloc
  cases hfind : table.slots.findIdx? PipeSlot.isFree with
  | none =>
    refine .inl ⟨rfl, fun hfree => ?_⟩
    have hnone := List.findIdx?_eq_none_iff.mp hfind _ hfree
    cases hnone
  | some i =>
    obtain ⟨hi, hfree, -⟩ := List.findIdx?_eq_some_iff_getElem.mp hfind
    have hslot : table.slots[i] = .free := by
      cases hat : table.slots[i] with
      | free => rfl
      | active pipe =>
        rw [hat] at hfree
        cases hfree
    refine .inr ⟨i, _, rfl, fun hsame => ?_, hslot ▸ List.getElem_mem hi, hi⟩
    have hat := congrArg (fun t : PipeTable => t.slots[i]?) hsame
    simp only [List.getElem?_set_self hi, List.getElem?_eq_getElem hi, hslot] at hat
    cases hat

/-! ### Atomic calls -/

/-- A failed `create_pipe` leaves both tables alone. -/
def CreateAtomic (pipes : Option PipeTable) (fds : FdTable) : Prop :=
  ∀ message pipes' fds', createPipe pipes fds = (.error message, pipes', fds') →
    pipes' = pipes ∧ fds' = fds

/-- A failed `named_pipe` leaves the table of pipes alone. -/
def NamedAtomic (pipes : Option PipeTable) (vfs : Vfs.VfsLock) (sec : Security) (path : String) :
    Prop :=
  ∀ message pipes' vfs', namedPipe pipes vfs sec path = .ok (.error message, pipes', vfs') →
    pipes' = pipes

/-- Two descriptors are free. -/
def TwoFree (fds : FdTable) : Prop := ∃ i j, i ≠ j ∧ fds.Free i ∧ fds.Free j

theorem createAtomic_iff (pipes : Option PipeTable) (fds : FdTable) :
    CreateAtomic pipes fds ↔ (HasFree pipes → TwoFree fds) := by
  unfold CreateAtomic createPipe
  cases pipes with
  | none =>
    refine iff_of_true ?_ fun ⟨table, htable, _⟩ => nomatch htable
    rintro message pipes' fds' hcall
    cases hcall
    exact ⟨rfl, rfl⟩
  | some table =>
    rcases table.alloc_cases with ⟨halloc, hfull⟩ | ⟨id, table', halloc, hne, hfree, -⟩
    · simp only [halloc]
      refine iff_of_true ?_ fun ⟨table, htable, hslot⟩ => ?_
      · rintro message pipes' fds' hcall
        cases hcall
        exact ⟨rfl, rfl⟩
      · cases htable
        exact (hfull hslot).elim
    · have hhas : HasFree (some table) := ⟨table, rfl, hfree⟩
      have hchanged : some table' ≠ some table := fun hsame => hne (Option.some.inj hsame)
      simp only [halloc, forall_prop_of_true hhas]
      rcases open_cases fds s!"/dev/pipe/{id}/r" with
        ⟨hread, hnone⟩ | ⟨i, fds₁, hread, hi, -, hfree₁⟩
      · simp only [hread]
        refine iff_of_false (fun hatomic => hchanged (hatomic _ _ _ rfl).1) ?_
        rintro ⟨i, j, -, hi, -⟩
        exact hnone i hi
      simp only [hread]
      rcases open_cases fds₁ s!"/dev/pipe/{id}/w" with ⟨hwrite, hnone⟩ | ⟨j, fds₂, hwrite, hj, -⟩
      · simp only [hwrite]
        refine iff_of_false (fun hatomic => hchanged (hatomic _ _ _ rfl).1) ?_
        rintro ⟨a, b, hab, ha, hb⟩
        by_cases hai : a = i
        · exact hnone b ((hfree₁ b).mpr ⟨hb, fun hbi => hab (hai.trans hbi.symm)⟩)
        · exact hnone a ((hfree₁ a).mpr ⟨ha, hai⟩)
      · simp only [hwrite]
        have hj' := (hfree₁ j).mp hj
        refine iff_of_true ?_ ⟨i, j, Ne.symm hj'.2, hi, hj'.1⟩
        rintro message pipes' fds' hcall
        cases hcall

/-- The file system takes a small file at the path. -/
def Takes (vfs : Vfs.VfsLock) (sec : Security) (path : String) : Prop :=
  ∃ fs, vfs = some fs ∧ Vfs.Accepts fs sec path

theorem write_marker {vfs : Vfs.VfsLock} (hvfs : ∀ fs, vfs = some fs → Vfs.Reached (some fs))
    (sec : Security) (path : String) {id : Nat} (hid : id < maxPipes) :
    Returns (Vfs.write vfs sec path (marker id)) fun (result, _) =>
      result = .ok () ↔ Takes vfs sec path := by
  cases vfs with
  | none =>
    have hnot : ¬ Takes none sec path := fun ⟨fs, hfs, _⟩ => nomatch hfs
    unfold Vfs.write
    split
    · exact .ok (iff_of_false nofun hnot)
    · exact .ok (iff_of_false nofun hnot)
  | some fs =>
    have hsize : ∀ id < maxPipes, (asBytes (marker id)).length ≤ Vfs.maxFileSize := by
      decide +kernel
    refine ((hvfs fs rfl).rooted.write_cases sec path (marker id)).mono ?_
    rintro ⟨result, vfs⟩ ⟨fs', rfl, hfits, -⟩
    refine (hfits (hsize id hid)).trans ⟨?_, ?_⟩
    · exact fun haccepts => ⟨fs, rfl, haccepts⟩
    · rintro ⟨fs₁, hfs₁, haccepts⟩
      cases hfs₁
      exact haccepts

theorem namedAtomic_iff {pipes : Option PipeTable} {vfs : Vfs.VfsLock}
    (hslots : ∀ table, pipes = some table → table.slots.length = maxPipes)
    (hvfs : ∀ fs, vfs = some fs → Vfs.Reached (some fs)) (sec : Security) (path : String) :
    NamedAtomic pipes vfs sec path ↔ (HasFree pipes → Takes vfs sec path) := by
  unfold NamedAtomic namedPipe
  cases pipes with
  | none =>
    refine iff_of_true ?_ fun ⟨table, htable, _⟩ => nomatch htable
    rintro message pipes' vfs' hcall
    cases hcall
    rfl
  | some table =>
    rcases table.alloc_cases with ⟨halloc, hfull⟩ | ⟨id, table', halloc, hne, hfree, hid⟩
    · simp only [halloc]
      refine iff_of_true ?_ fun ⟨table, htable, hslot⟩ => ?_
      · rintro message pipes' vfs' hcall
        cases hcall
        rfl
      · cases htable
        exact (hfull hslot).elim
    · have hhas : HasFree (some table) := ⟨table, rfl, hfree⟩
      obtain ⟨⟨result, vfs₁⟩, hwrite, htakes⟩ :=
        write_marker hvfs sec path (hslots table rfl ▸ hid)
      simp only [halloc, forall_prop_of_true hhas, hwrite, ok_bind, ← htakes]
      cases result with
      | error message =>
        refine iff_of_false (fun hatomic => hne ?_) nofun
        exact Option.some.inj (hatomic message _ _ rfl)
      | ok done =>
        refine iff_of_true ?_ rfl
        rintro message pipes' vfs' hcall
        cases hcall

/-- Creating a pipe is atomic exactly as long as what comes behind the slot can be had: two
descriptors, and a place for the marker file. -/
theorem pipe_creation_atomic_iff {pipes : Option PipeTable} {vfs : Vfs.VfsLock}
    (hslots : ∀ table, pipes = some table → table.slots.length = maxPipes)
    (hvfs : ∀ fs, vfs = some fs → Vfs.Reached (some fs)) (fds : FdTable) (sec : Security)
    (path : String) :
    CreateAtomic pipes fds ∧ NamedAtomic pipes vfs sec path ↔
      (HasFree pipes → TwoFree fds ∧ Takes vfs sec path) := by
  rw [createAtomic_iff, namedAtomic_iff hslots hvfs, imp_and]

/-- No descriptor is free. -/
def fullFds : FdTable := ⟨List.replicate maxFds (.open "/dev/null" .null 0), rfl⟩

theorem pipe_creation_atomic_iff_stored :
    Vfs.Reached (some Vfs.storedFs) ∧
    (CreateAtomic init fullFds ∧
        NamedAtomic init (some Vfs.storedFs) ⟨Security.init, []⟩ "/tmp/p" ↔
      (HasFree init →
        TwoFree fullFds ∧ Takes (some Vfs.storedFs) ⟨Security.init, []⟩ "/tmp/p")) := by
  refine ⟨Vfs.reached_storedFs,
    pipe_creation_atomic_iff (fun table htable => ?_) (fun fs hfs => ?_) fullFds _ _⟩
  · cases htable
    rfl
  · cases hfs
    exact Vfs.reached_storedFs

/-- Without descriptors a pipe is not created, and its slot is gone. -/
theorem createPipe_not_atomic : ¬ CreateAtomic init fullFds := by
  rw [createAtomic_iff]
  intro h
  obtain ⟨i, j, -, hi, -⟩ := h ⟨.new, rfl, List.mem_replicate.mpr ⟨by decide, rfl⟩⟩
  have hopen := List.mem_of_getElem? hi.2
  cases List.eq_of_mem_replicate hopen

end MerlionKernel.Pipefs
