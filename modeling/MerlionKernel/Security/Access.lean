import Mathlib.Algebra.Order.BigOperators.Group.List
import Mathlib.Algebra.Order.Group.Nat
import MerlionKernel.Theory.Run
import MerlionKernel.Vfs.Lookup

/-!
# Access to files

Permissions are kept by the literal text of a path, while the file system resolves a path by
its components. A further slash in front gives a spelling of the path that the table does not
know, and the default permission then decides: every user may read and only root may write.
So the spelling of a path is immaterial exactly when the table says for this user what the
default says.

A path without an entry counts as owned by root, but `chmod` does not ask for its owner: it
adds an entry that makes the caller the owner. The other calls of a user other than root change
only what the user owns.
-/

namespace MerlionKernel.Security

open Rust Theory Vfs

variable {table : PermTable} {path : String} {fs : Filesystem}

/-! ### Spellings -/

/-- `cat` does not refuse the path for its permissions. -/
def CatPermitted (fs : Filesystem) (sec : Security) (procText : NodeType → String)
    (path : String) : Prop :=
  cat (some fs) sec procText path ≠ .ok (.error "permission denied")

/-- `write` does not refuse the path for its permissions. -/
def WritePermitted (fs : Filesystem) (sec : Security) (path data : String) : Prop :=
  ∀ vfs', Vfs.write (some fs) sec path data ≠ .ok (.error "permission denied", vfs')

theorem catPermitted_iff (sec : Security) (procText : NodeType → String) (path : String) :
    CatPermitted fs sec procText path ↔ sec.canRead path = true := by
  unfold CatPermitted cat
  by_cases hread : sec.canRead path = true
  · simp only [hread, not_true_eq_false, if_false, iff_true]
    cases fs.resolve path with
    | none => simp
    | some idx =>
      simp only [Filesystem.readFile]
      cases index fs.inodes idx with
      | error fault => simp
      | ok inode =>
        simp only [ok_bind]
        split
        · simp
        · simp
  · simp [hread]

/-- Past the check, a write to an existing file fails for other reasons only. -/
theorem writePermitted_iff {idx : Nat} (sec : Security) (data : String)
    (hresolve : fs.resolve path = some idx) :
    WritePermitted fs sec path data ↔ sec.canWrite path = true := by
  unfold WritePermitted Vfs.write
  by_cases hwrite : sec.canWrite path = true
  · simp only [hwrite, not_true_eq_false, if_false, iff_true, Filesystem.openFile, hresolve,
      pure_eq_ok, ok_bind, Filesystem.writeFile]
    cases index fs.inodes idx with
    | error fault => simp
    | ok inode =>
      simp only [ok_bind]
      split
      · split
        · simp
        · simp
      · simp
      · simp
      · simp
  · simp [hwrite]

/-- A further spelling of a path, one that the table does not know. -/
theorem exists_unlisted_spelling (table : PermTable) (path : String) :
    ∃ other, pieces other '/' = pieces path '/' ∧ table.entryOf other = none := by
  -- More slashes in front than any listed path has characters.
  let n := (table.map fun e => e.1.length).sum + 1
  refine ⟨String.ofList (List.replicate n '/') ++ path, pieces_replicate_append n '/' path, ?_⟩
  rw [PermTable.entryOf, Option.map_eq_none_iff, List.find?_eq_none]
  intro e he heq
  have hlength : e.1.length = n + path.length := by simp [of_decide_eq_true heq]
  have hle : e.1.length ≤ (table.map fun e => e.1.length).sum :=
    List.le_sum_of_mem (List.mem_map_of_mem he)
  omega

theorem getPermission_of_unlisted (h : table.entryOf path = none) :
    table.getPermission path = .defaultFile := by
  rw [PermTable.getPermission, h]
  rfl

/-- A user other than root may read an unlisted file but not write it. -/
theorem may_unlisted {sec : Security} (huid : currentUid sec.userDb ≠ 0)
    (h : sec.permTable.entryOf path = none) :
    sec.canRead path = true ∧ sec.canWrite path = false := by
  simp only [canRead, canWrite, may, getPermission_of_unlisted h, checkPermission, if_neg huid]
  have howner : currentUid sec.userDb ≠ Permission.defaultFile.ownerUid := huid
  rw [if_neg howner, if_neg howner]
  split
  · decide
  · decide

/-- Whether the spelling of a path matters for `cat` and `write`: it does not, for a table and
a user, exactly when the user is root or every listed path that leads to an inode may be read
and not written, as by default. -/
theorem spelling_irrelevant_iff (fs : Filesystem) (sec : Security)
    (procText : NodeType → String) :
    (∀ p q idx, fs.resolve p = some idx → fs.resolve q = some idx →
      (CatPermitted fs sec procText p ↔ CatPermitted fs sec procText q) ∧
      ∀ data, WritePermitted fs sec p data ↔ WritePermitted fs sec q data) ↔
    (currentUid sec.userDb = 0 ∨ ∀ p perms idx, sec.permTable.entryOf p = some perms →
      fs.resolve p = some idx → sec.canRead p = true ∧ sec.canWrite p = false) := by
  constructor
  · intro hsame
    by_cases huid : currentUid sec.userDb = 0
    · exact Or.inl huid
    · refine Or.inr fun p perms idx _ hp => ?_
      obtain ⟨q, hpieces, hunlisted⟩ := exists_unlisted_spelling sec.permTable p
      have hq : fs.resolve q = some idx := by
        rw [resolve_eq_walk, hpieces, ← resolve_eq_walk, hp]
      obtain ⟨hread, hwrite⟩ := may_unlisted huid hunlisted
      obtain ⟨hcat, hput⟩ := hsame p q idx hp hq
      rw [catPermitted_iff, catPermitted_iff, hread] at hcat
      have hput' := hput ""
      rw [writePermitted_iff sec "" hp, writePermitted_iff sec "" hq, hwrite] at hput'
      exact ⟨hcat.mpr rfl, by simpa using hput'⟩
  · rintro hall p q idx hp hq
    -- Every spelling that leads to an inode gets the same answers.
    have hanswer : sec.canRead p = sec.canRead q ∧ sec.canWrite p = sec.canWrite q := by
      rcases hall with hroot | hlisted
      · simp [canRead, canWrite, may, checkPermission, hroot]
      · by_cases huid : currentUid sec.userDb = 0
        · simp [canRead, canWrite, may, checkPermission, huid]
        · have hdefault : ∀ path, fs.resolve path = some idx →
              sec.canRead path = true ∧ sec.canWrite path = false := by
            intro path hpath
            cases hentry : sec.permTable.entryOf path with
            | none => exact may_unlisted huid hentry
            | some perms => exact hlisted path perms idx hentry hpath
          obtain ⟨hpr, hpw⟩ := hdefault p hp
          obtain ⟨hqr, hqw⟩ := hdefault q hq
          rw [hpr, hpw, hqr, hqw]
          exact ⟨rfl, rfl⟩
    refine ⟨?_, fun data => ?_⟩
    · rw [catPermitted_iff, catPermitted_iff, hanswer.1]
    · rw [writePermitted_iff sec data hp, writePermitted_iff sec data hq, hanswer.2]

/-- The database after the user with uid 1000 logged in. -/
def userSession : UserDbLock := init.map fun db => { db with currentUid := 1000 }

/-- Root closes `/tmp/a` to others; the user is refused `/tmp/a` and reads it as `//tmp/a`. -/
theorem further_slash_bypasses_entry :
    (do
      let (_, vfs) ← Vfs.write (← Vfs.init) ⟨init, []⟩ "/tmp/a" "x"
      let sec : Security := ⟨userSession, [("/tmp/a", .new 0o600 0 0)]⟩
      let first ← cat vfs sec (fun _ => "") "/tmp/a"
      let second ← cat vfs sec (fun _ => "") "//tmp/a"
      let same := vfs.bind (·.resolve "/tmp/a") = vfs.bind (·.resolve "//tmp/a")
      return (first, second, decide same) : Exec _) =
    .ok (.error "permission denied", .ok "x", true) := by
  decide +kernel

/-! ### Changing permissions -/

inductive PermCall
  | chmod (path : String) (mode : UInt16)
  | chown (path : String) (newUid newGid : UInt32)

/-- A call by the user `uid`; one that is refused changes nothing. -/
def permStep (vfs : VfsLock) (uid : UInt32) (table : PermTable) : PermCall → Exec PermTable
  | .chmod path mode => .ok ((table.chmod uid (exists_ vfs path) path mode).toOption.getD table)
  | .chown path newUid newGid =>
    .ok ((table.chown uid (exists_ vfs path) path newUid newGid).toOption.getD table)

/-- What the table reports for the paths of others is what it reported before, and `uid` has
no new right to them. -/
def Unescalated (userDb : UserDbLock) (uid : UInt32) (before after : PermTable) : Prop :=
  ∀ path, (before.getPermission path).ownerUid ≠ uid →
    (after.getPermission path).bits = (before.getPermission path).bits ∧
    (after.getPermission path).ownerUid = (before.getPermission path).ownerUid ∧
    ∀ access, checkPermission userDb uid (after.getPermission path) access = true →
      checkPermission userDb uid (before.getPermission path) access = true

/-- The call makes the caller the owner of a path that had no entry. -/
def Claims (vfs : VfsLock) (table : PermTable) : PermCall → Prop
  | .chmod path _ => exists_ vfs path = true ∧ table.entryOf path = none
  | .chown _ _ _ => False

/-- The invariant: the reports for others are the same, and no entry was lost. -/
structure Preserved (uid : UInt32) (before after : PermTable) : Prop where
  report : ∀ path, (before.getPermission path).ownerUid ≠ uid →
    after.getPermission path = before.getPermission path
  listed : ∀ path, after.entryOf path = none → before.entryOf path = none

theorem entryOf_change_self (table : PermTable) (path : String) (f : Permission → Permission) :
    (table.change path f).entryOf path = (table.entryOf path).map f := by
  have hfind := find?_modifyFirst_self (p := fun e : String × Permission => e.1 = path)
    (f := fun e => (e.1, f e.2)) (fun _ => id) table
  rw [PermTable.entryOf, PermTable.entryOf, PermTable.change, hfind, Option.map_map, Option.map_map]
  rfl

theorem entryOf_change_of_ne {other : String} (h : other ≠ path) (f : Permission → Permission) :
    (table.change path f).entryOf other = table.entryOf other := by
  rw [PermTable.entryOf, PermTable.entryOf, PermTable.change, find?_modifyFirst_of_disjoint]
  · intro e he
    simpa [of_decide_eq_true he] using Ne.symm h
  · intro e he
    simpa [of_decide_eq_true he] using Ne.symm h

namespace Preserved

variable {uid : UInt32} {before after : PermTable}

theorem refl (uid : UInt32) (table : PermTable) : Preserved uid table table :=
  ⟨fun _ _ => rfl, fun _ h => h⟩

theorem unescalated (h : Preserved uid before after) (userDb : UserDbLock) :
    Unescalated userDb uid before after := by
  intro path howner
  rw [h.report path howner]
  exact ⟨rfl, rfl, fun _ hright => hright⟩

/-- Changing an entry of the caller's own. -/
theorem change (h : Preserved uid before after) {perms : Permission}
    (hentry : after.entryOf path = some perms) (howner : perms.ownerUid = uid)
    (f : Permission → Permission) : Preserved uid before (after.change path f) := by
  constructor
  · intro other hother
    -- A path that was another user's still is, so it is not the one that is changed.
    have hne : other ≠ path := by
      rintro rfl
      have hreport := h.report other hother
      rw [PermTable.getPermission, hentry, Option.getD_some] at hreport
      rw [← hreport] at hother
      exact hother howner
    rw [PermTable.getPermission, entryOf_change_of_ne hne]
    exact h.report other hother
  · intro other hnone
    by_cases hne : other = path
    · subst hne
      rw [entryOf_change_self, Option.map_eq_none_iff] at hnone
      exact h.listed other hnone
    · rw [entryOf_change_of_ne hne] at hnone
      exact h.listed other hnone

theorem of_result (h : Preserved uid before after) {result : Except String PermTable}
    (hresult : ∀ table, result = .ok table → Preserved uid before table) :
    Preserved uid before (result.toOption.getD after) := by
  cases result with
  | error message => exact h
  | ok table => exact hresult table rfl

theorem step (h : Preserved uid before after) (huid : uid ≠ 0) {vfs : VfsLock} {call : PermCall}
    {after' : PermTable} (hguard : ¬ Claims vfs after call)
    (hstep : permStep vfs uid after call = .ok after') : Preserved uid before after' := by
  cases call with
  | chmod path mode =>
    obtain rfl := Except.ok.inj hstep
    refine h.of_result fun table hchmod => ?_
    unfold PermTable.chmod at hchmod
    split at hchmod
    · cases hchmod
    · rename_i hfound
      split at hchmod
      · rename_i perms hentry
        split at hchmod
        · cases hchmod
        · rename_i howner
          obtain rfl := Except.ok.inj hchmod
          exact h.change hentry (by simpa [huid, eq_comm] using howner) _
      · -- Without an entry `chmod` would claim the path.
        rename_i hentry
        exact absurd ⟨Classical.not_not.mp hfound, hentry⟩ hguard
  | chown path newUid newGid =>
    obtain rfl := Except.ok.inj hstep
    refine h.of_result fun table hchown => ?_
    unfold PermTable.chown at hchown
    split at hchown
    · cases hchown
    · split at hchown
      · rename_i perms hentry
        split at hchown
        · cases hchown
        · rename_i howner
          obtain rfl := Except.ok.inj hchown
          exact h.change hentry (by simpa [huid, eq_comm] using howner) _
      · cases hchown

/-- Claiming a path changes the owner that was reported for it. -/
theorem broken (h : Preserved uid before after) (huid : uid ≠ 0) {vfs : VfsLock}
    {call : PermCall} (hclaims : Claims vfs after call) (userDb : UserDbLock) :
    ∃ after', permStep vfs uid after call = .ok after' ∧
      ¬ Unescalated userDb uid before after' := by
  cases call with
  | chown path newUid newGid => exact hclaims.elim
  | chmod path mode =>
    obtain ⟨hfound, hnone⟩ := hclaims
    have hchmod : after.chmod uid (exists_ vfs path) path mode =
        .ok (after ++ [(path, .new mode uid 0)]) := by
      simp [PermTable.chmod, hfound, hnone]
    have hbefore := getPermission_of_unlisted (h.listed path hnone)
    have hafter : PermTable.getPermission (after ++ [(path, .new mode uid 0)]) path =
        .new mode uid 0 := by
      rw [PermTable.entryOf, Option.map_eq_none_iff] at hnone
      simp [PermTable.getPermission, PermTable.entryOf, List.find?_append, hnone]
    refine ⟨after ++ [(path, .new mode uid 0)], by simp [permStep, hchmod, Except.toOption], ?_⟩
    intro hsame
    have howner := (hsame path (by rw [hbefore]; exact huid.symm)).2.1
    rw [hafter, hbefore] at howner
    exact huid howner

end Preserved

/-- From any table and in any file system, the calls of a user other than root leave the
reports and the rights for the paths of others alone throughout exactly when none of them is
a `chmod` of an existing path without an entry. -/
theorem always_unescalated_iff (vfs : VfsLock) (userDb : UserDbLock) (table : PermTable)
    (huid : currentUid userDb ≠ 0) (calls : List PermCall) :
    Always (permStep vfs (currentUid userDb)) (Unescalated userDb (currentUid userDb) table)
        table calls ↔
      Guarded (permStep vfs (currentUid userDb)) (fun table call => ¬ Claims vfs table call)
        table calls := by
  apply always_iff_guarded (Preserved (currentUid userDb) table)
  · intro after h
    exact h.unescalated userDb
  · intro after call after' h hguard hstep
    exact h.step huid hguard hstep
  · intro after call h hclaims
    exact h.broken huid (Classical.not_not.mp hclaims) userDb
  · exact Preserved.refl _ table

/-- The user with uid 1000 may not change or take over an entry of root's for a file. -/
theorem always_unescalated_iff_listed :
    ∃ vfs, Vfs.init = .ok vfs ∧ exists_ vfs "/proc/version" = true ∧
      Always (permStep vfs 1000) (Unescalated userSession 1000 [("/proc/version", .new 0o600 0 0)])
        [("/proc/version", .new 0o600 0 0)]
        [.chmod "/proc/version" 0o666, .chown "/proc/version" 1000 1000] := by
  refine ⟨Vfs.init.toOption.getD none, by decide +kernel, by decide +kernel, ?_⟩
  exact (always_unescalated_iff _ userSession [("/proc/version", .new 0o600 0 0)] (by decide) _).mpr
    ⟨fun h => absurd h.2 (by decide), fun _ _ => ⟨fun h => h, fun _ _ => trivial⟩⟩

/-- The user may not write `/proc/version`, changes its mode, and then owns it and may. -/
theorem chmod_takes_unlisted_path :
    (do
      let vfs ← Vfs.init
      let table ← permStep vfs 1000 [] (.chmod "/proc/version" 0o666)
      return (Security.canWrite ⟨userSession, []⟩ "/proc/version",
        (table.getPermission "/proc/version").ownerUid,
        Security.canWrite ⟨userSession, table⟩ "/proc/version") : Exec _) =
    .ok (false, 1000, true) := by
  decide +kernel

end MerlionKernel.Security
