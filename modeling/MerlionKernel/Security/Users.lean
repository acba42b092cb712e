import MerlionKernel.Security.Model
import MerlionKernel.Theory.Run

/-!
# Consistency of the user database

Membership is stored twice, in the groups of a user and in the members of a group. A user
may be given a group that does not exist yet; when the group is created later it starts
without members, and the two sides disagree from then on. The user who is logged in may be
removed, which leaves `current_uid` without a user. Nothing else can go wrong.
-/

namespace MerlionKernel.Security

open Rust Theory

/-- The calls that change the user database. -/
inductive UserCall
  | addUser (uid : UInt32) (name password : String) (groups : List UInt32)
  | removeUser (uid : UInt32)
  | addGroup (gid : UInt32) (name : String)
  | su (username : String) (password : Option String)
  | passwd (username : String) (oldPassword : Option String) (newPassword : String)
  | setCurrentUid (uid : UInt32)

def UserCall.perform (lock : UserDbLock) : UserCall → Except String UserDbLock
  | .addUser uid name password groups => Security.addUser lock uid name password groups
  | .removeUser uid => Security.removeUser lock uid
  | .addGroup gid name => Security.addGroup lock gid name
  | .su username password => Security.su lock username password
  | .passwd username oldPassword newPassword =>
    Security.passwd lock username oldPassword newPassword
  | .setCurrentUid uid => Security.setCurrentUid lock uid

/-- The database after a call, whatever the call returned. -/
def userStep (lock : UserDbLock) (call : UserCall) : Exec UserDbLock :=
  match call.perform lock with
  | .ok lock' => .ok lock'
  | .error _ => .ok lock

/-- Users differ in name and uid, a user is among the members of exactly the groups it
lists, and the current user exists. -/
structure Consistent (db : UserDb) : Prop where
  names : (db.users.map User.name).Nodup
  uids : (db.users.map User.uid).Nodup
  membership : ∀ u ∈ db.users, ∀ g ∈ db.groups, u.uid ∈ g.members ↔ g.gid ∈ u.groups
  current : ∃ u ∈ db.users, u.uid = db.currentUid

/-- The database is there, and consistent. -/
def LockConsistent (lock : UserDbLock) : Prop := ∃ db, lock = some db ∧ Consistent db

/-- A call that does not remove the current user, and does not create a group that some
user lists already. -/
def Careful (lock : UserDbLock) : UserCall → Prop
  | .removeUser uid => (∃ lock', removeUser lock uid = .ok lock') → uid ≠ currentUid lock
  | .addGroup gid name => (∃ lock', addGroup lock gid name = .ok lock') →
      ∀ db, lock = some db → ∀ u ∈ db.users, gid ∉ u.groups
  | _ => True

/-! ### The invariant -/

/-- A consistent database whose groups are told apart and have only users as members. -/
structure Kept (db : UserDb) : Prop extends Consistent db where
  gids : (db.groups.map Group.gid).Nodup
  known : ∀ g ∈ db.groups, ∀ m ∈ g.members, ∃ u ∈ db.users, u.uid = m

/-- The database is there, and in order. -/
def LockKept (lock : UserDbLock) : Prop := ∃ db, lock = some db ∧ Kept db

theorem onDb_eq_ok_iff {db : UserDb} {f : UserDb → Except String UserDb} {lock' : UserDbLock} :
    onDb (some db) f = .ok lock' ↔ ∃ db', f db = .ok db' ∧ lock' = some db' := by
  simp only [onDb]
  cases hf : f db with
  | error e => simp [Except.map]
  | ok db' => simp [Except.map, eq_comm]

/-- What a successful `add_group` did. -/
theorem of_addGroup {db : UserDb} {gid : UInt32} {name : String} {lock' : UserDbLock}
    (h : addGroup (some db) gid name = .ok lock') : (∀ g ∈ db.groups, g.gid ≠ gid) ∧
      lock' = some { db with groups := db.groups ++ [{ gid, name, members := [] }] } := by
  obtain ⟨db', hdb', rfl⟩ := onDb_eq_ok_iff.mp h
  split at hdb'
  · cases hdb'
  · split at hdb'
    · cases hdb'
    · rename_i hnew
      cases hdb'
      refine ⟨fun g hg hgid => hnew ?_, rfl⟩
      exact List.any_eq_true.mpr ⟨g, hg, by simp [hgid]⟩

/-- What a successful `remove_user` did. -/
theorem of_removeUser {db : UserDb} {uid : UInt32} {lock' : UserDbLock}
    (h : removeUser (some db) uid = .ok lock') :
    ∃ idx, db.users.findIdx? (fun u => u.uid = uid) = some idx ∧ lock' = some { db with
      groups := db.groups.map fun g => { g with members := g.members.filter (· ≠ uid) }
      users := db.users.eraseIdx idx } := by
  unfold removeUser at h
  split at h
  · cases h
  · obtain ⟨db', hdb', rfl⟩ := onDb_eq_ok_iff.mp h
    split at hdb'
    · cases hdb'
    · rename_i idx hidx
      cases hdb'
      exact ⟨idx, hidx, rfl⟩

theorem mem_join {uid m : UInt32} {g : Group} :
    m ∈ (g.join uid).members ↔ m ∈ g.members ∨ m = uid := by
  unfold Group.join
  split
  · rename_i hmem
    constructor
    · exact Or.inl
    · rintro (h | rfl)
      · exact h
      · exact hmem
  · simp

@[simp] theorem gid_join (uid : UInt32) (g : Group) : (g.join uid).gid = g.gid := by
  unfold Group.join
  split <;> rfl

theorem join_join (uid : UInt32) (g : Group) : (g.join uid).join uid = g.join uid := by
  rw [Group.join, if_pos (mem_join.mpr (Or.inr rfl))]

theorem map_gid {f : Group → Group} (h : ∀ g, (f g).gid = g.gid) (gs : List Group) :
    (gs.map f).map Group.gid = gs.map Group.gid := by
  rw [List.map_map]
  exact List.map_congr_left fun g _ => h g

theorem gid_ite_join (p : Group → Prop) [DecidablePred p] (uid : UInt32) (g : Group) :
    (if p g then g.join uid else g).gid = g.gid := by
  split
  · exact gid_join uid g
  · rfl

/-- When groups are told apart by their gids, the user joins exactly the listed ones. -/
theorem foldl_join (uid : UInt32) (gids : List UInt32) {gs : List Group}
    (hnodup : (gs.map Group.gid).Nodup) :
    gids.foldl (fun gs gid => modifyFirst (fun g => g.gid = gid) (Group.join uid) gs) gs =
      gs.map fun g => if g.gid ∈ gids then g.join uid else g := by
  induction gids generalizing gs with
  | nil => simp
  | cons gid gids ih =>
    have hgids := map_gid (gid_ite_join (·.gid = gid) uid) gs
    rw [List.foldl_cons, modifyFirst_eq_map hnodup, ih (hgids ▸ hnodup), List.map_map]
    refine List.map_congr_left fun g _ => ?_
    simp only [Function.comp_apply, List.mem_cons]
    by_cases hgid : g.gid = gid
    · simp only [hgid, if_true, gid_join, true_or, join_join, ite_self]
    · simp only [hgid, if_false, false_or]

namespace Kept

variable {db db' : UserDb} {lock' : UserDbLock}

/-- A database with the same users, up to their passwords, and the same groups. -/
theorem of_same_users (h : Kept db)
    (husers : db'.users.map (fun u => (u.uid, u.name, u.groups)) =
      db.users.map (fun u => (u.uid, u.name, u.groups)))
    (hgroups : db'.groups = db.groups) (hcurrent : ∃ u ∈ db'.users, u.uid = db'.currentUid) :
    Kept db' := by
  have hback : ∀ u' ∈ db'.users, ∃ u ∈ db.users, u.uid = u'.uid ∧ u.groups = u'.groups := by
    intro u' hu'
    have hmem := List.mem_map_of_mem (f := fun u => (u.uid, u.name, u.groups)) hu'
    rw [husers] at hmem
    obtain ⟨u, hu, heq⟩ := List.mem_map.mp hmem
    simp only [Prod.mk.injEq] at heq
    exact ⟨u, hu, heq.1, heq.2.2⟩
  have hforth : ∀ u ∈ db.users, ∃ u' ∈ db'.users, u'.uid = u.uid := by
    intro u hu
    have hmem := List.mem_map_of_mem (f := fun u => (u.uid, u.name, u.groups)) hu
    rw [← husers] at hmem
    obtain ⟨u', hu', heq⟩ := List.mem_map.mp hmem
    simp only [Prod.mk.injEq] at heq
    exact ⟨u', hu', heq.1⟩
  have huids := congrArg (List.map Prod.fst) husers
  have hnames := congrArg (List.map fun key => key.2.1) husers
  rw [List.map_map, List.map_map] at huids hnames
  refine ⟨⟨?_, ?_, ?_, hcurrent⟩, ?_, ?_⟩
  · exact hnames ▸ h.names
  · exact huids ▸ h.uids
  · intro u' hu' g hg
    obtain ⟨u, hu, huid, hlist⟩ := hback u' hu'
    rw [← huid, ← hlist]
    exact h.membership u hu g (hgroups ▸ hg)
  · rw [hgroups]
    exact h.gids
  · intro g hg m hm
    obtain ⟨u, hu, rfl⟩ := h.known g (hgroups ▸ hg) m hm
    exact hforth u hu

theorem addUser (h : Kept db) {uid : UInt32} {name password : String} {groups : List UInt32}
    (hcall : Security.addUser (some db) uid name password groups = .ok lock') :
    LockKept lock' := by
  obtain ⟨db', hdb', rfl⟩ := onDb_eq_ok_iff.mp hcall
  refine ⟨db', rfl, ?_⟩
  split at hdb'
  · cases hdb'
  · split at hdb'
    · cases hdb'
    · rename_i hnew
      cases hdb'
      have hother : ∀ u ∈ db.users, u.name ≠ name ∧ u.uid ≠ uid := by
        intro u hu
        simp only [List.any_eq_true, decide_eq_true_eq, not_exists, not_and, not_or] at hnew
        exact hnew u hu
      rw [foldl_join uid groups h.gids]
      -- The groups keep their gids, and gain the new user where it lists them.
      have hgroup : ∀ g' ∈ db.groups.map (fun g => if g.gid ∈ groups then g.join uid else g),
          ∃ g ∈ db.groups, g'.gid = g.gid ∧
            ∀ m, m ∈ g'.members ↔ m ∈ g.members ∨ m = uid ∧ g.gid ∈ groups := by
        intro g' hg'
        obtain ⟨g, hg, rfl⟩ := List.mem_map.mp hg'
        refine ⟨g, hg, ?_⟩
        by_cases hgid : g.gid ∈ groups
        · simp [hgid, mem_join]
        · simp [hgid]
      refine ⟨⟨?_, ?_, ?_, ?_⟩, ?_, ?_⟩
      · exact nodup_map_concat h.names fun u hu => (hother u hu).1
      · exact nodup_map_concat h.uids fun u hu => (hother u hu).2
      · intro u hu g' hg'
        obtain ⟨g, hg, hgid, hmembers⟩ := hgroup g' hg'
        rw [hmembers, hgid]
        rcases List.mem_append.mp hu with hold | hnew
        · have hne := (hother u hold).2
          simp only [hne, false_and, or_false]
          exact h.membership u hold g hg
        · obtain rfl := List.mem_singleton.mp hnew
          have hfresh : uid ∉ g.members := by
            intro hm
            obtain ⟨u, hu, huid⟩ := h.known g hg uid hm
            exact (hother u hu).2 huid
          simp [hfresh]
      · obtain ⟨u, hu, huid⟩ := h.current
        exact ⟨u, List.mem_append_left _ hu, huid⟩
      · rw [map_gid (gid_ite_join (·.gid ∈ groups) uid)]
        exact h.gids
      · intro g' hg' m hm
        obtain ⟨g, hg, -, hmembers⟩ := hgroup g' hg'
        rcases (hmembers m).mp hm with hold | ⟨rfl, -⟩
        · obtain ⟨u, hu, huid⟩ := h.known g hg m hold
          exact ⟨u, List.mem_append_left _ hu, huid⟩
        · exact ⟨_, List.mem_append_right _ (List.mem_singleton_self _), rfl⟩

/-- Removing the only user with a uid leaves the users with other uids. -/
theorem mem_eraseIdx_iff (h : Kept db) {uid : UInt32} {idx : Nat}
    (hidx : db.users.findIdx? (fun u => u.uid = uid) = some idx) {u : User} :
    u ∈ db.users.eraseIdx idx ↔ u ∈ db.users ∧ u.uid ≠ uid := by
  obtain ⟨hlt, hfound, -⟩ := List.findIdx?_eq_some_iff_getElem.mp hidx
  have hfound : db.users[idx].uid = uid := of_decide_eq_true hfound
  rw [List.mem_eraseIdx_iff_getElem]
  constructor
  · rintro ⟨i, hi, hne, rfl⟩
    refine ⟨List.getElem_mem hi, fun huid => hne ?_⟩
    refine (List.getElem?_inj (by simpa using hi) h.uids).mp ?_
    simp [hi, hlt, huid, hfound]
  · rintro ⟨hu, hne⟩
    obtain ⟨i, hi, rfl⟩ := List.getElem_of_mem hu
    refine ⟨i, hi, ?_, rfl⟩
    rintro rfl
    exact hne hfound

theorem removeUser (h : Kept db) {uid : UInt32}
    (hother : uid ≠ db.currentUid) (hcall : Security.removeUser (some db) uid = .ok lock') :
    LockKept lock' := by
  obtain ⟨idx, hidx, rfl⟩ := of_removeUser hcall
  refine ⟨_, rfl, ?_⟩
  have hsub := List.eraseIdx_sublist db.users idx
  refine ⟨⟨?_, ?_, ?_, ?_⟩, ?_, ?_⟩
  · exact h.names.sublist (hsub.map _)
  · exact h.uids.sublist (hsub.map _)
  · intro u hu g' hg'
    obtain ⟨hu, hne⟩ := (h.mem_eraseIdx_iff hidx).mp hu
    obtain ⟨g, hg, rfl⟩ := List.mem_map.mp hg'
    simp only [List.mem_filter, decide_eq_true_eq, hne, ne_eq, not_false_eq_true, and_true]
    exact h.membership u hu g hg
  · obtain ⟨u, hu, huid⟩ := h.current
    refine ⟨u, (h.mem_eraseIdx_iff hidx).mpr ⟨hu, ?_⟩, huid⟩
    rw [huid]
    exact hother.symm
  · simp only [List.map_map]
    exact h.gids
  · intro g' hg' m hm
    obtain ⟨g, hg, rfl⟩ := List.mem_map.mp hg'
    obtain ⟨hm, hne⟩ := List.mem_filter.mp hm
    obtain ⟨u, hu, rfl⟩ := h.known g hg m hm
    exact ⟨u, (h.mem_eraseIdx_iff hidx).mpr ⟨hu, of_decide_eq_true hne⟩, rfl⟩

theorem addGroup (h : Kept db) {gid : UInt32} {name : String}
    (hunlisted : ∀ u ∈ db.users, gid ∉ u.groups)
    (hcall : Security.addGroup (some db) gid name = .ok lock') :
    LockKept lock' := by
  obtain ⟨hnew, rfl⟩ := of_addGroup hcall
  refine ⟨_, rfl, ⟨h.names, h.uids, ?_, h.current⟩, ?_, ?_⟩
  · intro u hu g hg
    rcases List.mem_append.mp hg with hold | hlast
    · exact h.membership u hu g hold
    · obtain rfl := List.mem_singleton.mp hlast
      simp [hunlisted u hu]
  · exact nodup_map_concat h.gids hnew
  · intro g hg m hm
    rcases List.mem_append.mp hg with hold | hlast
    · exact h.known g hold m hm
    · obtain rfl := List.mem_singleton.mp hlast
      cases hm

/-- Logging another user in. -/
theorem login (h : Kept db) {u : User} (hu : u ∈ db.users) :
    Kept { db with currentUid := u.uid } :=
  ⟨⟨h.names, h.uids, h.membership, u, hu, rfl⟩, h.gids, h.known⟩

theorem su (h : Kept db) {username : String} {password : Option String}
    (hcall : Security.su (some db) username password = .ok lock') :
    LockKept lock' := by
  obtain ⟨db', hdb', rfl⟩ := onDb_eq_ok_iff.mp hcall
  refine ⟨db', rfl, ?_⟩
  split at hdb'
  · cases hdb'
  · rename_i target htarget
    have hlogin := h.login (List.mem_of_find?_eq_some htarget)
    split at hdb'
    · split at hdb'
      · cases hdb'
      · split at hdb'
        · cases hdb'
        · cases hdb'
          exact hlogin
    · cases hdb'
      exact hlogin

theorem passwd (h : Kept db) {username newPassword : String} {oldPassword : Option String}
    (hcall : Security.passwd (some db) username oldPassword newPassword = .ok lock') :
    LockKept lock' := by
  obtain ⟨db', hdb', rfl⟩ := onDb_eq_ok_iff.mp hcall
  refine ⟨db', rfl, ?_⟩
  have hchanged : Kept { db with
      users := modifyFirst (fun u => u.name = username)
        ({ · with passwordHash := hashPassword newPassword }) db.users } := by
    have hkey : ∀ {β : Type} {key : User → β},
        (∀ u : User, key { u with passwordHash := hashPassword newPassword } = key u) →
        (modifyFirst (fun u => u.name = username)
          ({ · with passwordHash := hashPassword newPassword }) db.users).map key =
          db.users.map key := fun hsame => map_modifyFirst hsame db.users
    refine h.of_same_users (hkey fun _ => rfl) rfl ?_
    obtain ⟨u, hu, huid⟩ := h.current
    have hmem := List.mem_map_of_mem (f := User.uid) hu
    rw [← hkey fun _ => rfl] at hmem
    obtain ⟨u', hu', huid'⟩ := List.mem_map.mp hmem
    exact ⟨u', hu', huid'.trans huid⟩
  simp only at hdb'
  split at hdb'
  · cases hdb'
  · split at hdb'
    · split at hdb'
      · cases hdb'
      · split at hdb'
        · cases hdb'
        · split at hdb'
          · cases hdb'
          · cases hdb'
            exact hchanged
    · cases hdb'
      exact hchanged

theorem setCurrentUid (h : Kept db) {uid : UInt32}
    (hcall : Security.setCurrentUid (some db) uid = .ok lock') :
    LockKept lock' := by
  obtain ⟨db', hdb', rfl⟩ := onDb_eq_ok_iff.mp hcall
  refine ⟨db', rfl, ?_⟩
  split at hdb'
  · cases hdb'
  · split at hdb'
    · cases hdb'
    · rename_i hany
      cases hdb'
      obtain ⟨u, hu, huid⟩ := List.any_eq_true.mp (Classical.not_not.mp hany)
      obtain rfl : u.uid = uid := of_decide_eq_true huid
      exact h.login hu

end Kept

/-! ### Runs -/

theorem lockKept_init : LockKept init := by
  refine ⟨_, rfl, ⟨⟨?_, ?_, ?_, ?_⟩, ?_, ?_⟩⟩ <;> simp

theorem LockKept.step {lock lock' : UserDbLock} {call : UserCall} (h : LockKept lock)
    (hcareful : Careful lock call) (hstep : userStep lock call = .ok lock') : LockKept lock' := by
  obtain ⟨db, rfl, hkept⟩ := h
  unfold userStep at hstep
  split at hstep
  · rename_i lock'' hcall
    cases hstep
    cases call with
    | addUser uid name password groups => exact hkept.addUser hcall
    | removeUser uid => exact hkept.removeUser (hcareful ⟨_, hcall⟩) hcall
    | addGroup gid name => exact hkept.addGroup (hcareful ⟨_, hcall⟩ db rfl) hcall
    | su username password => exact hkept.su hcall
    | passwd username oldPassword newPassword => exact hkept.passwd hcall
    | setCurrentUid uid => exact hkept.setCurrentUid hcall
  · cases hstep
    exact ⟨db, rfl, hkept⟩

/-- The two careless calls leave an inconsistent database. -/
theorem LockKept.inconsistent {lock : UserDbLock} {call : UserCall} (h : LockKept lock)
    (hcareless : ¬ Careful lock call) :
    ∃ lock', userStep lock call = .ok lock' ∧ ¬ LockConsistent lock' := by
  obtain ⟨db, rfl, hkept⟩ := h
  cases call with
  | removeUser uid =>
    obtain ⟨⟨lock', hcall⟩, huid⟩ := Classical.not_imp.mp hcareless
    have huid : uid = db.currentUid := Classical.not_not.mp huid
    refine ⟨lock', by rw [userStep, UserCall.perform, hcall], ?_⟩
    rintro ⟨db', rfl, hconsistent⟩
    -- No user has the uid of the current user any more.
    obtain ⟨idx, hidx, heq⟩ := of_removeUser hcall
    obtain rfl := Option.some.inj heq
    obtain ⟨u, hu, hcurrent⟩ := hconsistent.current
    exact ((hkept.mem_eraseIdx_iff hidx).mp hu).2 (hcurrent.trans huid.symm)
  | addGroup gid name =>
    obtain ⟨⟨lock', hcall⟩, hlisted⟩ := Classical.not_imp.mp hcareless
    simp only [Option.some.injEq, forall_eq', not_forall, Classical.not_not] at hlisted
    obtain ⟨u, hu, hgid⟩ := hlisted
    refine ⟨lock', by rw [userStep, UserCall.perform, hcall], ?_⟩
    rintro ⟨db', rfl, hconsistent⟩
    obtain ⟨-, heq⟩ := of_addGroup hcall
    obtain rfl := Option.some.inj heq
    have hmember := hconsistent.membership u hu { gid, name, members := [] } (by simp)
    exact List.not_mem_nil (hmember.mpr hgid)
  | _ => exact absurd trivial hcareless

/-- The database is consistent after every initial part of the calls exactly when no call
among them removes the current user or creates a group that a user lists already. -/
theorem always_consistent_iff (calls : List UserCall) :
    Always userStep LockConsistent init calls ↔ Guarded userStep Careful init calls := by
  refine always_iff_guarded LockKept ?_ ?_ ?_ lockKept_init calls
  · rintro lock ⟨db, rfl, hkept⟩
    exact ⟨db, rfl, hkept.toConsistent⟩
  · exact fun lock call lock' hkept hcareful hstep => hkept.step hcareful hstep
  · exact fun lock call hkept hcareless => hkept.inconsistent hcareless

/-- A user is given group 7 before there is one: the user lists the group, and the group
does not have it as a member. -/
theorem late_group_lacks_member :
    (do let lock ← run userStep init [.addUser 5 "guest" "" [7], .addGroup 7 "late"]
        return lock.map fun db : UserDb =>
          ((db.users.find? fun u : User => u.uid = 5).map User.groups,
            (db.groups.find? fun g : Group => g.gid = 7).map Group.members)) =
      .ok (some (some [7], some [])) := by
  decide +kernel

end MerlionKernel.Security
