import MerlionKernel.Rust.Bytes
import MerlionKernel.Rust.Fallible
import MerlionKernel.Rust.Split

/-!
# The temporary file systems

The model of `tmpfs.rs`. Every mount has a tree of directories of its own and a limit on the
bytes in it. Files are reached by walking down the components of a path, and the space in
use is added up over the whole tree whenever it is needed.

Of the calls `mount`, `create` and `read` are here. The tick of the timer is a parameter of those
that read it. Permissions and owners of files, which only `stat` reads, and the counters of reads
and writes are not kept.
-/

namespace MerlionKernel.Tmpfs

open Rust

/-- `MAX_MOUNTS`. -/
def maxMounts : Nat := 8

/-- `MAX_FILES`. -/
def maxFiles : Nat := 128

structure TmpfsFile where
  name : String
  data : Buffer
  createdTick : UInt64
  modifiedTick : UInt64
  accessedTick : UInt64

def TmpfsFile.size (file : TmpfsFile) : Nat := file.data.1.length

structure TmpfsDir where
  name : String
  files : List TmpfsFile
  subdirs : List TmpfsDir

namespace TmpfsDir

def new (name : String) : TmpfsDir := { name, files := [], subdirs := [] }

def findFile (dir : TmpfsDir) (name : String) : Option Nat :=
  dir.files.findIdx? fun f => f.name = name

def findSubdir (dir : TmpfsDir) (name : String) : Option Nat :=
  dir.subdirs.findIdx? fun d => d.name = name

mutual

def totalSize : TmpfsDir → Exec Nat
  | ⟨_, files, subdirs⟩ => do
    let fileSize ← files.foldlM (fun acc f => u64 (acc + f.size)) 0
    let subSize ← totalSizes subdirs 0
    u64 (fileSize + subSize)

/-- The sum over the subdirectories, added to `acc` one by one. -/
def totalSizes : List TmpfsDir → Nat → Exec Nat
  | [], acc => return acc
  | d :: ds, acc => do
    let n ← d.totalSize
    let acc ← u64 (acc + n)
    totalSizes ds acc

end

mutual

def fileCount : TmpfsDir → Exec Nat
  | ⟨_, files, subdirs⟩ => do
    let own := files.length
    let sub ← fileCounts subdirs 0
    u64 (own + sub)

/-- The sum over the subdirectories, added to `acc` one by one. -/
def fileCounts : List TmpfsDir → Nat → Exec Nat
  | [], acc => return acc
  | d :: ds, acc => do
    let n ← d.fileCount
    let acc ← u64 (acc + n)
    fileCounts ds acc

end

/-- Change the directory that the components lead to; `missing` is the error when there is
none. -/
def navigateMut {β : Type} (missing : String) (f : TmpfsDir → Try (β × TmpfsDir)) :
    List String → TmpfsDir → Try (β × TmpfsDir)
  | [], dir => f dir
  | part :: parts, dir =>
    -- Repeated slashes leave empty components, which are skipped.
    if part = "" then navigateMut missing f parts dir
    else
      match dir.findSubdir part with
      | none => err missing
      | some idx => do
        let sub ← lift (index dir.subdirs idx)
        let (b, sub) ← navigateMut missing f parts sub
        return (b, { dir with subdirs := dir.subdirs.set idx sub })

end TmpfsDir

structure TmpfsMount where
  path : String
  root : TmpfsDir
  maxSize : UInt64
  inodeCounter : Nat

namespace TmpfsMount

def new (path : String) (maxSize : UInt64) : TmpfsMount :=
  { path, root := .new "/", maxSize, inodeCounter := 1 }

def currentSize (self : TmpfsMount) : Exec Nat := self.root.totalSize

def fileCount (self : TmpfsMount) : Exec Nat := self.root.fileCount

def nextInode (self : TmpfsMount) : Exec (Nat × TmpfsMount) := do
  let next ← u64 (self.inodeCounter + 1)
  return (self.inodeCounter, { self with inodeCounter := next })

end TmpfsMount

structure TmpfsState where
  mounts : List TmpfsMount

/-- `STATE` before any call. -/
def TmpfsState.empty : TmpfsState := { mounts := [] }

/-! ### Paths -/

/-- The name of the mount and the components below it. -/
def splitPath (path : String) : String × List String :=
  match split (trimStartMatches path '/') '/' with
  | [] => ("", [])
  | mount :: rest => (mount, rest)

def findMount (state : TmpfsState) (path : String) : Option Nat :=
  let mountName := (split (trimStartMatches path '/') '/').head?.getD ""
  state.mounts.findIdx? fun m => trimStartMatches m.path '/' = mountName

/-- The components of the directory and the last one; none when there are none. -/
def splitLast (parts : List String) : Option (List String × String) :=
  parts.getLast?.map fun last => (parts.dropLast, last)

/-! ### Mounts -/

def mount (state : TmpfsState) (path : String) (maxSize : UInt64) :
    Except String Unit × TmpfsState :=
  if state.mounts.length ≥ maxMounts then (.error "max tmpfs mounts reached", state)
  else if state.mounts.any fun m => m.path = path then (.error "already mounted", state)
  else (.ok (), { mounts := state.mounts ++ [.new path maxSize] })

/-! ### Files and directories -/

/-- The outcome of a call on the tree of one mount; an error leaves the tree alone. -/
def commit {β : Type} (state : TmpfsState) (idx : Nat) (m : TmpfsMount) :
    Try (β × TmpfsDir) → Exec (Except String β × TmpfsState)
  | .ok (b, root) => .ok (.ok b, { mounts := state.mounts.set idx { m with root } })
  | .error (.err message) => .ok (.error message, state)
  | .error (.fault fault) => .error fault

/-- The call with the mount of a path, the components of its directory and its last one. -/
def onEntry {β : Type} (state : TmpfsState) (path invalid : String)
    (body : TmpfsMount → List String → String → Try (β × TmpfsDir)) :
    Exec (Except String β × TmpfsState) :=
  match findMount state path with
  | none => return (.error "no tmpfs mount for path", state)
  | some idx => do
    let m ← index state.mounts idx
    match splitLast (splitPath path).2 with
    | none => return (.error invalid, state)
    | some (parts, last) => commit state idx m (body m parts last)

/-- Change the file with the given name. -/
def TmpfsDir.onFile {β : Type} (dir : TmpfsDir) (name : String)
    (f : TmpfsFile → Try (β × TmpfsFile)) : Try (β × TmpfsDir) :=
  match dir.findFile name with
  | none => err "file not found"
  | some fi => do
    let file ← lift (index dir.files fi)
    let (b, file) ← f file
    return (b, { dir with files := dir.files.set fi file })

def create (state : TmpfsState) (tick : UInt64) (path : String) (data : Buffer) :
    Exec (Except String Unit × TmpfsState) :=
  match findMount state path with
  | none => return (.error "no tmpfs mount for path", state)
  | some idx => do
    let m ← index state.mounts idx
    let current ← m.currentSize
    let wanted ← u64 (current + data.1.length)
    if wanted > m.maxSize.toNat then return (.error "tmpfs size limit exceeded", state)
    else
      let count ← m.fileCount
      if count ≥ maxFiles then return (.error "max file count reached", state)
      else
        match splitLast (splitPath path).2 with
        | none => return (.error "invalid file path", state)
        | some (dirParts, fileName) =>
          -- The counter moves on before the directory is looked for.
          let (_, m) ← m.nextInode
          let state : TmpfsState := { mounts := state.mounts.set idx m }
          commit state idx m (m.root.navigateMut "directory not found" (fun dir =>
            if (dir.findFile fileName).isSome then err "file already exists"
            else return ((), { dir with
              files := dir.files ++ [{
                name := fileName, data
                createdTick := tick, modifiedTick := tick, accessedTick := tick }] })) dirParts)

def read (state : TmpfsState) (tick : UInt64) (path : String) :
    Exec (Except String Buffer × TmpfsState) :=
  onEntry state path "invalid file path" fun m dirParts fileName =>
    m.root.navigateMut "directory not found" (fun dir =>
      dir.onFile fileName fun file =>
        return (file.data, { file with accessedTick := tick })) dirParts

end MerlionKernel.Tmpfs
