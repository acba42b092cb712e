import MerlionKernel.Rust.Exec
import MerlionKernel.Rust.Split
import MerlionKernel.Security.Model

/-!
# The virtual file system

The model of `vfs.rs`. Inodes live in a vector and name their parent by its index; a path
is resolved by walking down from the root, taking the first child with the right name at
each step. A deleted file stays in the vector under another name and type.

The contents of a file are always those of a `&str` that was written, so they are kept as a
string; the text of the nodes under `/proc` is a parameter, and what is written to the
serial device is not kept.
-/

namespace MerlionKernel.Vfs

open Rust

/-- `MAX_INODES`. -/
def maxInodes : Nat := 64

/-- `MAX_FILE_SIZE`. -/
def maxFileSize : Nat := 4096

/-- `MAX_PATH_CACHE`. -/
def maxPathCache : Nat := 256

inductive NodeType
  | directory
  | regularFile
  | devNull
  | devSerial
  | procUptime
  | procMeminfo
  | procTasks
  | procVersion
  | procCpuinfo
  | procModules
  | procSelf
  deriving DecidableEq

structure Inode where
  name : String
  nodeType : NodeType
  parent : Nat
  data : String
  ownerUid : UInt32
  ownerGid : UInt32
  deriving DecidableEq

/-- What `delete_file` leaves of an inode: it keeps its place and its parent. -/
def Inode.deleted (inode : Inode) : Inode :=
  { inode with data := "", name := "(deleted)", nodeType := .devNull }

structure Filesystem where
  inodes : List Inode
  pathCache : List (UInt64 × Nat)
  deriving DecidableEq

/-- `fnv_hash`. -/
def fnvHash (path : String) : UInt64 := fnv1a (asBytes path)

/-! ### Lookup in the vector of inodes -/

/-- The inode at `i` is a child of `dir` with the given name. -/
def isChild (inodes : List Inode) (dir : Nat) (name : String) (i : Nat) : Bool :=
  i ≠ 0 ∧ inodes[i]?.any fun inode => inode.parent = dir ∧ inode.name = name

/-- The first child of `dir` with the given name. -/
def findChild (inodes : List Inode) (dir : Nat) (name : String) : Option Nat :=
  (List.range inodes.length).find? (isChild inodes dir name)

/-- The path made of the parts, each behind a slash. -/
def joinParts (parts : List String) : String := parts.foldl (fun path p => path.push '/' ++ p) ""

namespace Filesystem

/-- The path of an inode, by walking up to the root. -/
def buildPath (fs : Filesystem) (idx : Nat) : Exec String :=
  if idx = 0 then return "/"
  else do
    -- A table in which parents come first is climbed in less than its length.
    let parts ← loop (fun (cur, parts) => do
        if cur ≠ 0 then
          let inode ← index fs.inodes cur
          return .again (inode.parent, parts ++ [inode.name])
        else return .stop parts)
      (fs.inodes.length + 1) (idx, [])
    return joinParts parts.reverse

/-- The first fourteen inodes. -/
def initialInodes : List Inode :=
  let node (name : String) (nodeType : NodeType) (parent : Nat) : Inode :=
    { name, nodeType, parent, data := "", ownerUid := 0, ownerGid := 0 }
  [ node "" .directory 0,
    node "dev" .directory 0,
    node "null" .devNull 1,
    node "serial" .devSerial 1,
    node "proc" .directory 0,
    node "uptime" .procUptime 4,
    node "meminfo" .procMeminfo 4,
    node "tasks" .procTasks 4,
    node "version" .procVersion 4,
    node "cpuinfo" .procCpuinfo 4,
    node "modules" .procModules 4,
    node "self" .procSelf 4,
    node "etc" .directory 0,
    node "tmp" .directory 0 ]

def populateInitialCache (fs : Filesystem) : Exec Filesystem :=
  (List.range fs.inodes.length).foldlM (fun fs idx => do
    let path ← fs.buildPath idx
    if fs.pathCache.length < maxPathCache then
      return { fs with pathCache := fs.pathCache ++ [(fnvHash path, idx)] }
    else return fs) fs

def new : Exec Filesystem := populateInitialCache { inodes := initialInodes, pathCache := [] }

/-- Add an entry to the path cache; the oldest one gives way when it is full. -/
def cacheInsert (fs : Filesystem) (path : String) (idx : Nat) : Filesystem :=
  let hash := fnvHash path
  if (hash, idx) ∈ fs.pathCache then fs
  else
    let pathCache := if fs.pathCache.length ≥ maxPathCache then fs.pathCache.tail else fs.pathCache
    { fs with pathCache := pathCache ++ [(hash, idx)] }

def cacheRemove (fs : Filesystem) (idx : Nat) : Filesystem :=
  { fs with pathCache := fs.pathCache.filter fun entry => entry.2 ≠ idx }

def resolveUncached (fs : Filesystem) (path : String) : Option Nat :=
  if path = "/" then some 0
  else
    (split (trimStartMatches path '/') '/').foldlM (fun current component =>
      if component = "" then some current else findChild fs.inodes current component) 0

/-- A cache entry answers only when resolving the path again confirms it. -/
def resolve (fs : Filesystem) (path : String) : Option Nat :=
  let hash := fnvHash path
  let cached := fs.pathCache.findSome? fun (h, idx) =>
    if h = hash ∧ idx < fs.inodes.length then
      match fs.resolveUncached path with
      | some verified => if verified = idx then some idx else none
      | none => none
    else none
  match cached with
  | some idx => some idx
  | none => fs.resolveUncached path

def listDir (fs : Filesystem) (dirIdx : Nat) : List Inode :=
  (fs.inodes.zipIdx.filter fun (node, i) => i ≠ 0 ∧ node.parent = dirIdx).map Prod.fst

/-- The contents of a file; `procText` is what the system generates for a node. -/
def readFile (fs : Filesystem) (procText : NodeType → String) (idx : Nat) : Exec String := do
  let inode ← index fs.inodes idx
  return match inode.nodeType with
    | .regularFile => inode.data
    | .devNull => ""
    | .devSerial => "(serial device)\n"
    | .directory => "(directory)\n"
    | generated => procText generated

def writeFile (fs : Filesystem) (idx : Nat) (data : String) :
    Exec (Except String Unit × Filesystem) := do
  let inode ← index fs.inodes idx
  match inode.nodeType with
  | .regularFile =>
    if (asBytes data).length > maxFileSize then return (.error "file too large", fs)
    else return (.ok (), { fs with inodes := fs.inodes.set idx { inode with data } })
  | .devNull => return (.ok (), fs)
  -- The text goes to the serial line, which is not part of the state.
  | .devSerial => return (.ok (), fs)
  | _ => return (.error "cannot write to this file", fs)

/-- A new inode owned by the current user. -/
def newInode (sec : Security) (name : String) (nodeType : NodeType) (parent : Nat) : Inode :=
  { name, nodeType, parent, data := ""
    ownerUid := Security.currentUid sec.userDb, ownerGid := Security.currentGid sec.userDb }

def createFile (fs : Filesystem) (sec : Security) (parent : Nat) (name : String) :
    Exec (Except String Nat × Filesystem) := do
  let dir ← index fs.inodes parent
  if dir.nodeType ≠ .directory then return (.error "parent is not a directory", fs)
  else if fs.inodes.length ≥ maxInodes then return (.error "filesystem full", fs)
  else
    match findChild fs.inodes parent name with
    -- An entry of this name is handed out as it is, also when it is a directory.
    | some i => return (.ok i, fs)
    | none =>
      let idx := fs.inodes.length
      let fs := { fs with inodes := fs.inodes ++ [newInode sec name .regularFile parent] }
      let path ← fs.buildPath idx
      return (.ok idx, fs.cacheInsert path idx)

def deleteFile (fs : Filesystem) (idx : Nat) : Exec (Except String Unit × Filesystem) := do
  if idx = 0 ∨ idx ≥ fs.inodes.length then return (.error "invalid inode", fs)
  else
    let inode ← index fs.inodes idx
    if inode.nodeType ≠ .regularFile then return (.error "can only delete regular files", fs)
    else
      let fs := fs.cacheRemove idx
      -- Indices are identities, so the slot stays and is not used again.
      return (.ok (), { fs with inodes := fs.inodes.set idx inode.deleted })

end Filesystem

/-! ### The public calls -/

/-- `VFS`: absent until `init`. -/
abbrev VfsLock := Option Filesystem

def init : Exec VfsLock := do
  let fs ← Filesystem.new
  return some fs

/-- The directory and the last component of a path that is to be created. -/
def splitPath (path : String) : Except String (String × String) :=
  match rsplitOnce path '/' with
  | none => .error "invalid path"
  | some (parentPath, name) => .ok (if parentPath = "" then "/" else parentPath, name)

def typeChar : NodeType → Char
  | .directory => 'd'
  | .regularFile => '-'
  | _ => 'c'

def ls (vfs : VfsLock) (path : String) : Exec (Except String (List (String × Char))) :=
  match vfs with
  | none => return .error "VFS not initialized"
  | some fs =>
    match fs.resolve path with
    | none => return .error "path not found"
    | some idx => do
      let inode ← index fs.inodes idx
      if inode.nodeType ≠ .directory then return .error "not a directory"
      else return .ok ((fs.listDir idx).map fun node => (node.name, typeChar node.nodeType))

def cat (vfs : VfsLock) (sec : Security) (procText : NodeType → String) (path : String) :
    Exec (Except String String) :=
  if ¬ sec.canRead path then return .error "permission denied"
  else
    match vfs with
    | none => return .error "VFS not initialized"
    | some fs =>
      match fs.resolve path with
      | none => return .error "file not found"
      | some idx => do
        let inode ← index fs.inodes idx
        if inode.nodeType = .directory then return .error "is a directory"
        else
          let text ← fs.readFile procText idx
          return .ok text

/-- The file that a `write` is about, created when it is not there. -/
def Filesystem.openFile (fs : Filesystem) (sec : Security) (path : String) :
    Exec (Except String Nat × Filesystem) :=
  match fs.resolve path with
  | some idx => return (.ok idx, fs)
  | none =>
    match splitPath path with
    | .error message => return (.error message, fs)
    | .ok (parentPath, filename) =>
      match fs.resolve parentPath with
      | none => return (.error "parent directory not found", fs)
      | some parentIdx => fs.createFile sec parentIdx filename

def write (vfs : VfsLock) (sec : Security) (path data : String) :
    Exec (Except String Unit × VfsLock) :=
  if ¬ sec.canWrite path then return (.error "permission denied", vfs)
  else
    match vfs with
    | none => return (.error "VFS not initialized", vfs)
    | some fs => do
      match ← fs.openFile sec path with
      | (.error message, fs) => return (.error message, some fs)
      | (.ok idx, fs) =>
        let (result, fs) ← fs.writeFile idx data
        return (result, some fs)

def rm (vfs : VfsLock) (sec : Security) (path : String) : Exec (Except String Unit × VfsLock) :=
  if ¬ sec.canWrite path then return (.error "permission denied", vfs)
  else
    match vfs with
    | none => return (.error "VFS not initialized", vfs)
    | some fs =>
      match fs.resolve path with
      | none => return (.error "file not found", vfs)
      | some idx => do
        let (result, fs) ← fs.deleteFile idx
        return (result, some fs)

/-- `exists`. -/
def exists_ (vfs : VfsLock) (path : String) : Bool := (vfs.bind fun fs => fs.resolve path).isSome

def mkdir (vfs : VfsLock) (sec : Security) (path : String) : Exec (Except String Unit × VfsLock) :=
  match splitPath path with
  | .error message => return (.error message, vfs)
  | .ok (parentPath, dirname) =>
    -- Here the directory is what must be writable; `write` and `rm` ask for the path itself.
    if ¬ sec.canWrite parentPath then return (.error "permission denied", vfs)
    else
      match vfs with
      | none => return (.error "VFS not initialized", vfs)
      | some fs =>
        match fs.resolve parentPath with
        | none => return (.error "parent not found", vfs)
        | some parentIdx => do
          let dir ← index fs.inodes parentIdx
          if dir.nodeType ≠ .directory then return (.error "parent is not a directory", vfs)
          else if fs.inodes.length ≥ maxInodes then return (.error "filesystem full", vfs)
          else if (findChild fs.inodes parentIdx dirname).isSome then
            return (.error "directory already exists", vfs)
          -- The empty name passes, and the path cache does not learn of the directory.
          else return (.ok (), some { fs with
            inodes := fs.inodes ++
              [Filesystem.newInode sec dirname .directory parentIdx] })

end MerlionKernel.Vfs
