import MerlionKernel.Rust.Text

/-!
# The MF16 filesystem

A flat filesystem on a byte buffer (`fat.rs`). Block 0 carries the magic, blocks 1 to 3
the file allocation table with one little-endian 16-bit entry per cluster, blocks 4 to 7
a directory of 64 entries of 32 bytes, and the data clusters start at block 8.

A directory entry holds the name in bytes 0 to 15, its length in byte 16, the flag in
byte 17 (1 when the entry is active), the start cluster in bytes 18 and 19 and the file
size in bytes 20 to 23. Cluster numbers are 16-bit values kept as natural numbers. The
calls that change the disk answer their result together with the new disk, also when
that result is an error.
-/

namespace MerlionKernel.Fat

open Rust

/-- The disk image a call works on. -/
abbrev Disk := Bytes

/-- The result of a call that changes the disk, with the disk it leaves. -/
abbrev Outcome := Except String Unit × Disk

/-- `b"MF16"`. -/
def magic : Bytes := [0x4D, 0x46, 0x31, 0x36]

def fatStart : Nat := 1
def fatBlocks : Nat := 3
def dirStart : Nat := 4
def dataStart : Nat := 8
def maxFiles : Nat := 64
def entrySize : Nat := 32
def clusterSize : Nat := 512
def fatFree : Nat := 0x0000
def fatEof : Nat := 0xFFFF

/-- The number of 16-bit entries of the allocation table. -/
def maxClusters : Nat := fatBlocks * clusterSize / 2

/-- Where directory entry `i` starts. -/
def entryOffset (i : Nat) : Nat := dirStart * clusterSize + i * entrySize

/-- Where the data of a cluster starts. -/
def dataOffset (cluster : Nat) : Nat := (dataStart + cluster) * clusterSize

/-- Where the table entry of a cluster starts. -/
def fatOffset (cluster : Nat) : Nat := fatStart * clusterSize + cluster * 2

/-- Clear a buffer and mark it as an MF16 filesystem. -/
def format (disk : Disk) : Exec Outcome :=
  if disk.length < dataStart * clusterSize + clusterSize then
    return (.error "disk too small", disk)
  else do
    let disk ← copyFromSlice (List.replicate disk.length 0) 0 4 magic
    return (.ok (), disk)

def readFat (disk : Disk) (cluster : Nat) : Exec Nat :=
  let off := fatOffset cluster
  -- A chain that leaves the disk ends there.
  if off + 2 > disk.length then
    return fatEof
  else
    return fromLe [← index disk off, ← index disk (off + 1)]

def writeFat (disk : Disk) (cluster value : Nat) : Exec Disk :=
  let off := fatOffset cluster
  if off + 2 ≤ disk.length then
    copyFromSlice disk off (off + 2) (toLe 2 value)
  else
    return disk

/-! ### Looking a file up -/

/-- Whether directory entry `i` is active and carries the name. A name that is not
UTF-8 counts as empty. -/
def entryMatches (disk : Disk) (name : String) (i : Nat) : Exec Bool := do
  let off := entryOffset i
  if (← index disk (off + 17)) ≠ 1 then
    return false
  else
    let nameLen := (← index disk (off + 16)).toNat
    let entryName := (fromUtf8 (← slice disk off (off + nameLen))).getD ""
    return entryName = name

/-- The scan of the directory that `read_file` and `delete_file` start with: the first
of the given entries that matches. -/
def findEntry (disk : Disk) (name : String) : List Nat → Exec (Option Nat)
  | [] => return none
  | i :: rest => do
    if ← entryMatches disk name i then
      return some i
    else
      findEntry disk name rest

/-- The loop variables of the cluster walk in `read_file`. -/
structure ReadState where
  cluster : Nat
  remaining : Nat
  data : Bytes

/-- One round of the cluster walk in `read_file`. -/
def readRound (disk : Disk) (s : ReadState) : Exec (ControlFlow ReadState Bytes) := do
  if s.cluster ≠ fatEof ∧ s.remaining > 0 then
    let off := dataOffset s.cluster
    let toRead := min s.remaining clusterSize
    let block ← if off + toRead ≤ disk.length then slice disk off (off + toRead) else pure []
    let next ← readFat disk s.cluster
    return .again ⟨next, s.remaining - toRead, s.data ++ block⟩
  else
    return .stop s.data

/-- Read a file's contents. Every round of the walk lowers `remaining`, so the file size
bounds the number of rounds. -/
def readFile (disk : Disk) (name : String) : Exec (Option Bytes) := do
  if (← slice disk 0 4) ≠ magic then
    return none
  else
    match ← findEntry disk name (List.range maxFiles) with
    | none => return none
    | some i =>
      let off := entryOffset i
      let startCluster := fromLe [← index disk (off + 18), ← index disk (off + 19)]
      let fileSize := fromLe [← index disk (off + 20), ← index disk (off + 21),
        ← index disk (off + 22), ← index disk (off + 23)]
      let data ← loop (readRound disk) (fileSize + 1) ⟨startCluster, fileSize, []⟩
      return some data

/-! ### Deleting a file -/

/-- One round of the loop that frees a cluster chain. -/
def freeRound (s : Disk × Nat) : Exec (ControlFlow (Disk × Nat) Disk) := do
  let (disk, cluster) := s
  -- Cluster 0 bears the number that marks a free entry, so a chain stops short of it.
  if cluster ≠ fatEof ∧ cluster ≠ fatFree then
    let next ← readFat disk cluster
    let disk ← writeFat disk cluster fatFree
    return .again (disk, next)
  else
    return .stop disk

/-- Delete a file. The loop zeroes every table entry before it follows it, so that only the
last cluster it visits may have been visited before, and `2 ^ 16 + 1` rounds suffice. -/
def deleteFile (disk : Disk) (name : String) : Exec Outcome := do
  if (← slice disk 0 4) ≠ magic then
    return (.error "not formatted", disk)
  else
    match ← findEntry disk name (List.range maxFiles) with
    | none => return (.error "file not found", disk)
    | some i =>
      let off := entryOffset i
      let start := fromLe [← index disk (off + 18), ← index disk (off + 19)]
      let disk ← loop freeRound (2 ^ 16 + 1) (disk, start)
      let disk ← store disk (off + 17) 0
      return (.ok (), disk)

/-! ### Writing a file -/

/-- Collect free clusters among the given ones until `needed` have been found. -/
def allocate (disk : Disk) (needed : Nat) : List Nat → List Nat → Exec (List Nat)
  | [], allocated => return allocated
  | c :: rest, allocated => do
    if (← readFat disk c) = fatFree then
      if (allocated ++ [c]).length = needed then
        return allocated ++ [c]
      else
        allocate disk needed rest (allocated ++ [c])
    else
      allocate disk needed rest allocated

/-- What the table entry of the `i`-th allocated cluster is to hold. -/
def nextCluster (allocated : List Nat) (i : Nat) : Exec Nat :=
  if i + 1 < allocated.length then index allocated (i + 1) else return fatEof

/-- Link the `i`-th allocated cluster to the one after it, or end the chain there. -/
def linkCluster (allocated : List Nat) (disk : Disk) (i : Nat) : Exec Disk := do
  let next ← nextCluster allocated i
  writeFat disk (← index allocated i) next

/-- Write the chain of the allocated clusters into the table. -/
def writeChain (allocated : List Nat) (disk : Disk) : Exec Disk :=
  (List.range allocated.length).foldlM (linkCluster allocated) disk

/-- Write the next block of the contents into a cluster; the state counts the bytes
written so far. -/
def writeBlock (contents : Bytes) (s : Disk × Nat) (cluster : Nat) : Exec (Disk × Nat) := do
  let (disk, written) := s
  let off := dataOffset cluster
  let toWrite := min (contents.length - written) clusterSize
  let block ← slice contents written (written + toWrite)
  let disk ← copyFromSlice disk off (off + toWrite) block
  return (disk, written + toWrite)

/-- Write the contents into the allocated clusters. -/
def writeData (contents : Bytes) (allocated : List Nat) (disk : Disk) : Exec (Disk × Nat) :=
  allocated.foldlM (writeBlock contents) (disk, 0)

/-- Fill in directory entry `i`. -/
def fillEntry (name : String) (contents : Bytes) (allocated : List Nat) (i : Nat)
    (disk : Disk) : Exec Disk := do
  let off := entryOffset i
  let nb := asBytes name
  let disk ← copyFromSlice disk off (off + nb.length) nb
  let disk ← store disk (off + 16) (UInt8.ofNat nb.length)
  let disk ← store disk (off + 17) 1
  let disk ← copyFromSlice disk (off + 18) (off + 20) (toLe 2 (← index allocated 0))
  copyFromSlice disk (off + 20) (off + 24) (toLe 4 contents.length)

/-- Fill in the first of the given directory entries that is free. -/
def writeEntry (name : String) (contents : Bytes) (allocated : List Nat) (disk : Disk) :
    List Nat → Exec Outcome
  | [] => return (.error "directory full", disk)
  | i :: rest => do
    if (← index disk (entryOffset i + 17)) = 0 then
      let disk ← fillEntry name contents allocated i disk
      return (.ok (), disk)
    else
      writeEntry name contents allocated disk rest

/-- The number of clusters a file of the given size takes. -/
def clustersNeeded (size : Nat) : Nat := (size + clusterSize - 1) / clusterSize

/-- Write a file, creating or overwriting it. -/
def writeFile (disk : Disk) (name : String) (contents : Bytes) : Exec Outcome := do
  if (← slice disk 0 4) ≠ magic then
    return (.error "not formatted as MF16", disk)
  else if (asBytes name).length > 16 then
    return (.error "filename too long", disk)
  else
    -- The old file goes before it is known whether the new one fits.
    let (_, disk) ← deleteFile disk name
    let needed := clustersNeeded contents.length
    if needed = 0 then
      return (.error "empty file", disk)
    else
      let allocated ← allocate disk needed (List.range maxClusters) []
      if allocated.length < needed then
        return (.error "disk full", disk)
      else
        let disk ← writeChain allocated disk
        let (disk, _) ← writeData contents allocated disk
        writeEntry name contents allocated disk (List.range maxFiles)

end MerlionKernel.Fat
