import MerlionKernel.Rust.Bytes
import MerlionKernel.Rust.Text

/-!
# Tar archives

The reader and the writer of `tar.rs`. An archive is a sequence of blocks of 512 bytes:
each file is a header followed by its contents, filled up to a whole block, and two zero
blocks end the archive.

Positions are sums of lengths of buffers and sizes below 8^12, far from the end of `usize`,
so they are plain numbers here. The value of an octal field of any length is checked.
-/

namespace MerlionKernel.Tar

open Rust

/-- `BLOCK_SIZE`. -/
def blockSize : Nat := 512

/-- `TarHeader`: a block, whose fields lie at fixed offsets. -/
structure TarHeader where
  bytes : Bytes
  length_eq : bytes.length = blockSize

namespace TarHeader

def name (header : TarHeader) : Bytes := window header.bytes 0 100

def size (header : TarHeader) : Bytes := window header.bytes 124 12

def checksum (header : TarHeader) : Bytes := window header.bytes 148 8

end TarHeader

/-- `TarEntry`. -/
structure TarEntry where
  header : TarHeader
  data : Bytes

/-! ### Reading -/

/-- The loop of `parse_octal` on the value so far and the rest of the field. -/
def octalLoop (value : Nat) : Bytes → Exec Nat
  | [] => return value
  | b :: field =>
    if b = 0 ∨ b = ' '.toUInt8 then return value
    else if '0'.toUInt8 ≤ b ∧ b ≤ '7'.toUInt8 then do
      let value ← u64 (value * 8 + (b - '0'.toUInt8).toNat)
      octalLoop value field
    -- Any other byte is passed over.
    else octalLoop value field

/-- `parse_octal`. -/
def parseOctal (field : Bytes) : Exec Nat := octalLoop 0 field

/-- `read_unaligned` of a header, which needs a whole block. -/
def readHeader (hdr : Bytes) : Exec TarHeader :=
  if h : hdr.length = blockSize then .ok ⟨hdr, h⟩ else .error .slice

/-- One round of the loop of `parse_tar`, on the offset and the entries so far. -/
def entryRound (data : Bytes) (s : Nat × List TarEntry) :
    Exec (ControlFlow (Nat × List TarEntry) (List TarEntry)) := do
  let (offset, entries) := s
  if offset + blockSize ≤ data.length then
    let hdr ← slice data offset (offset + blockSize)
    if hdr.all (· = 0) then return .stop entries
    else
      let header ← readHeader hdr
      let fileSize ← parseOctal header.size
      let dataStart := offset + blockSize
      let dataEnd := dataStart + fileSize
      let fileData ←
        if dataEnd ≤ data.length then slice data dataStart dataEnd
        -- The archive is cut short: the entry keeps the bytes that are there.
        else slice data dataStart (min data.length dataEnd)
      let blocks := (fileSize + blockSize - 1) / blockSize
      return .again (dataStart + blocks * blockSize, entries ++ [⟨header, fileData⟩])
  else return .stop entries

/-- `parse_tar`. Every round but the last passes a block. -/
def parseTar (data : Bytes) : Exec (List TarEntry) :=
  loop (entryRound data) (data.length + 1) (0, [])

/-! ### Writing -/

/-- One round of the loop of `write_octal`, on the value left and the buffer. -/
def octalRound (s : Nat × Bytes) (i : Nat) : Exec (Nat × Bytes) := do
  let (v, buf) := s
  let buf ← store buf i ('0'.toUInt8 + .ofNat (v &&& 7))
  return (v >>> 3, buf)

/-- `write_octal`. -/
def writeOctal (value : Nat) (buf : Bytes) : Exec Bytes := do
  let last ← sub buf.length 1
  let buf ← store buf last 0
  let (_, buf) ← (List.range last).reverse.foldlM octalRound (value, buf)
  return buf

/-- `compute_checksum`. -/
def computeChecksum (header : Bytes) : Nat :=
  header.zipIdx.foldl
    (fun sum (b, i) => sum + if 148 ≤ i ∧ i < 156 then ' '.toUInt8.toNat else b.toNat) 0

/-- The header that `create_tar` writes for a file. -/
def createHeader (name : String) (contents : Bytes) : Exec Bytes := do
  let hdr := List.replicate blockSize 0
  let nb := asBytes name
  -- A longer name loses its end.
  let start ← slice nb 0 (min nb.length 100)
  let hdr ← copyFromSlice hdr 0 (min nb.length 100) start
  let hdr ← modifySlice hdr 100 108 (writeOctal 0o644)
  let hdr ← modifySlice hdr 108 116 (writeOctal 0)
  let hdr ← modifySlice hdr 116 124 (writeOctal 0)
  let hdr ← modifySlice hdr 124 136 (writeOctal contents.length)
  let hdr ← modifySlice hdr 136 148 (writeOctal 0)
  let hdr ← store hdr 156 '0'.toUInt8
  let hdr ← copyFromSlice hdr 257 263 (asBytes "ustar\x00")
  let hdr ← copyFromSlice hdr 263 265 (asBytes "00")
  -- The checksum is computed with its own field blank.
  let hdr ← copyFromSlice hdr 148 156 (asBytes "        ")
  let cksum := computeChecksum hdr
  let hdr ← modifySlice hdr 148 155 (writeOctal cksum)
  store hdr 155 ' '.toUInt8

/-- One round of the loop of `create_tar`. -/
def appendEntry (archive : Bytes) (entry : String × Bytes) : Exec Bytes := do
  let (name, contents) := entry
  let hdr ← createHeader name contents
  let archive := archive ++ hdr ++ contents
  let rem := contents.length % blockSize
  if rem ≠ 0 then return archive ++ List.replicate (blockSize - rem) 0 else return archive

/-- `create_tar`. -/
def createTar (entries : List (String × Bytes)) : Exec Bytes := do
  let archive ← entries.foldlM appendEntry []
  return archive ++ List.replicate (blockSize * 2) 0

end MerlionKernel.Tar
