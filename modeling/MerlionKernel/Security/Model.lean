import MerlionKernel.Rust.Find
import MerlionKernel.Rust.Text

/-!
# Users and permissions

The model of `security.rs`: the user database behind its lock, the side table of file
permissions, and the check that combines them. Before `init` the database is absent, and
then every call on it fails while `current_uid` is 0.

A call that fails leaves the database and the table as they were, so the calls return the
new state or the message of their error.
-/

namespace MerlionKernel.Security

open Rust

/-- `MAX_USERS`. -/
def maxUsers : Nat := 64

/-- `MAX_GROUPS`. -/
def maxGroups : Nat := 64

/-! ### Permissions -/

/-- The permission bits, and who owns the file. -/
structure Permission where
  bits : UInt16
  ownerUid : UInt32
  ownerGid : UInt32

namespace Permission

/-- `Permission::READ`. -/
def read : UInt16 := 0b100

/-- `Permission::WRITE`. -/
def write : UInt16 := 0b010

def new (mode : UInt16) (ownerUid ownerGid : UInt32) : Permission :=
  { bits := mode &&& 0o777, ownerUid, ownerGid }

/-- `default_file`: `rw-r--r--`, owned by root. -/
def defaultFile : Permission := new 0o644 0 0

def owner (self : Permission) : UInt16 := (self.bits >>> 6) &&& 0o7

def group (self : Permission) : UInt16 := (self.bits >>> 3) &&& 0o7

def other (self : Permission) : UInt16 := self.bits &&& 0o7

end Permission

/-! ### The user database -/

structure User where
  uid : UInt32
  name : String
  passwordHash : UInt64
  groups : List UInt32

structure Group where
  gid : UInt32
  name : String
  members : List UInt32

structure UserDb where
  users : List User
  groups : List Group
  currentUid : UInt32

/-- `USER_DB`: absent until `init`. -/
abbrev UserDbLock := Option UserDb

/-- `hash_password`. -/
def hashPassword (password : String) : UInt64 := fnv1a (asBytes password)

/-- `init`. -/
def init : UserDbLock :=
  some {
    users := [
      { uid := 0, name := "root", passwordHash := hashPassword "", groups := [0] },
      { uid := 1, name := "system", passwordHash := hashPassword "", groups := [1] },
      { uid := 1000, name := "user", passwordHash := hashPassword "", groups := [1000] }]
    groups := [
      { gid := 0, name := "root", members := [0] },
      { gid := 1, name := "system", members := [1] },
      { gid := 1000, name := "users", members := [1000] }]
    currentUid := 0 }

/-- A call that needs the database. -/
def onDb (lock : UserDbLock) (f : UserDb → Except String UserDb) : Except String UserDbLock :=
  match lock with
  | none => .error "security: not initialised"
  | some db => (f db).map some

/-- A user who joins a group is added to its members once. -/
def Group.join (uid : UInt32) (g : Group) : Group :=
  if uid ∈ g.members then g else { g with members := g.members ++ [uid] }

def addUser (lock : UserDbLock) (uid : UInt32) (name password : String) (groups : List UInt32) :
    Except String UserDbLock :=
  onDb lock fun db =>
    if db.users.length ≥ maxUsers then .error "security: max users reached"
    else if db.users.any fun u => u.name = name ∨ u.uid = uid then
      .error "security: user already exists"
    else .ok { db with
      -- A gid without a group is passed over here, but stays in the list of the user.
      groups := groups.foldl (fun gs gid => modifyFirst (fun g => g.gid = gid) (Group.join uid) gs)
        db.groups
      users := db.users ++ [{ uid, name, passwordHash := hashPassword password, groups }] }

def removeUser (lock : UserDbLock) (uid : UInt32) : Except String UserDbLock :=
  if uid = 0 then .error "security: cannot remove root"
  else onDb lock fun db =>
    match db.users.findIdx? fun u => u.uid = uid with
    | none => .error "security: user not found"
    | some idx => .ok { db with
        groups := db.groups.map fun g => { g with members := g.members.filter (· ≠ uid) }
        users := db.users.eraseIdx idx }

def addGroup (lock : UserDbLock) (gid : UInt32) (name : String) : Except String UserDbLock :=
  onDb lock fun db =>
    if db.groups.length ≥ maxGroups then .error "security: max groups reached"
    else if db.groups.any fun g => g.name = name ∨ g.gid = gid then
      .error "security: group already exists"
    else .ok { db with groups := db.groups ++ [{ gid, name, members := [] }] }

def su (lock : UserDbLock) (username : String) (password : Option String) :
    Except String UserDbLock :=
  onDb lock fun db =>
    match db.users.find? fun u => u.name = username with
    | none => .error "security: user not found"
    | some target =>
      -- Root needs no password, and one that is given is not looked at.
      if db.currentUid ≠ 0 then
        match password with
        | none => .error "security: password required"
        | some pw =>
          if target.passwordHash ≠ hashPassword pw then .error "security: authentication failed"
          else .ok { db with currentUid := target.uid }
      else .ok { db with currentUid := target.uid }

def passwd (lock : UserDbLock) (username : String) (oldPassword : Option String)
    (newPassword : String) : Except String UserDbLock :=
  onDb lock fun db =>
    let changed := .ok { db with
      users := modifyFirst (fun u => u.name = username)
        ({ · with passwordHash := hashPassword newPassword }) db.users }
    match db.users.find? fun u => u.name = username with
    | none => .error "security: user not found"
    | some user =>
      if db.currentUid ≠ 0 then
        if db.currentUid ≠ user.uid then
          .error "security: only root can change other users' passwords"
        else
          match oldPassword with
          | none => .error "security: old password required"
          | some old =>
            if user.passwordHash ≠ hashPassword old then .error "security: old password incorrect"
            else changed
      else changed

def setCurrentUid (lock : UserDbLock) (uid : UInt32) : Except String UserDbLock :=
  onDb lock fun db =>
    if db.currentUid ≠ 0 ∧ db.currentUid ≠ uid then .error "security: permission denied"
    else if ¬ db.users.any fun u => u.uid = uid then .error "security: user not found"
    else .ok { db with currentUid := uid }

def currentUid : UserDbLock → UInt32
  | some db => db.currentUid
  | none => 0

/-- The first group of the current user. -/
def currentGid : UserDbLock → UInt32
  | some db =>
    ((db.users.find? fun u => u.uid = db.currentUid).bind fun u => u.groups.head?).getD 0
  | none => 0

/-- Whether the bits of a class include all of the requested access. -/
def grants (bits access : UInt16) : Bool := bits &&& access = access

/-- The user is known to be in the group. -/
def inGroup (lock : UserDbLock) (uid gid : UInt32) : Bool :=
  match lock with
  | none => false
  | some db =>
    match db.users.find? fun u => u.uid = uid with
    | none => false
    | some user => gid ∈ user.groups

def checkPermission (lock : UserDbLock) (uid : UInt32) (perms : Permission) (access : UInt16) :
    Bool :=
  if uid = 0 then true
  else if uid = perms.ownerUid then grants perms.owner access
  else if inGroup lock uid perms.ownerGid then grants perms.group access
  else grants perms.other access

/-! ### The permission table -/

/-- `PERM_TABLE`: permissions by the path they were set for. -/
abbrev PermTable := List (String × Permission)

namespace PermTable

/-- The entry for a path, found by its literal text. -/
def entryOf (table : PermTable) (path : String) : Option Permission :=
  (table.find? fun e => e.1 = path).map Prod.snd

def getPermission (table : PermTable) (path : String) : Permission :=
  (table.entryOf path).getD .defaultFile

/-- The table with the entry for a path changed. -/
def change (table : PermTable) (path : String) (f : Permission → Permission) : PermTable :=
  modifyFirst (fun e => e.1 = path) (fun e => (e.1, f e.2)) table

/-- `chmod`, called by `uid`; `found` is whether the file system has the path. -/
def chmod (table : PermTable) (uid : UInt32) (found : Bool) (path : String) (mode : UInt16) :
    Except String PermTable :=
  if ¬ found then .error "security: file not found"
  else
    match table.entryOf path with
    | some perms =>
      if uid ≠ 0 ∧ uid ≠ perms.ownerUid then .error "security: permission denied"
      else .ok (table.change path ({ · with bits := mode &&& 0o777 }))
    -- No owner is asked for here: the caller becomes the owner, whoever it is.
    | none => .ok (table ++ [(path, .new mode uid 0)])

/-- `chown`, called by `uid`; `found` is whether the file system has the path. -/
def chown (table : PermTable) (uid : UInt32) (found : Bool) (path : String)
    (newUid newGid : UInt32) : Except String PermTable :=
  if ¬ found then .error "security: file not found"
  else
    match table.entryOf path with
    | some perms =>
      if uid ≠ 0 ∧ uid ≠ perms.ownerUid then .error "security: permission denied"
      else .ok (table.change path ({ · with ownerUid := newUid, ownerGid := newGid }))
    | none =>
      if uid ≠ 0 then .error "security: permission denied"
      else .ok (table ++ [(path, .new 0o644 newUid newGid)])

end PermTable

end MerlionKernel.Security

namespace MerlionKernel

/-- The state of the security module. -/
structure Security where
  userDb : Security.UserDbLock
  permTable : Security.PermTable

namespace Security

/-- The current user may do this to the path. -/
def may (sec : Security) (access : UInt16) (path : String) : Bool :=
  checkPermission sec.userDb (currentUid sec.userDb) (sec.permTable.getPermission path) access

def canRead (sec : Security) (path : String) : Bool := sec.may Permission.read path

def canWrite (sec : Security) (path : String) : Bool := sec.may Permission.write path

end Security

end MerlionKernel
