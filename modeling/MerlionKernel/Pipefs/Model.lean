import MerlionKernel.Rust.Bytes

/-!
# Pipes

`pipefs.rs` keeps a table of pipes, each of them a ring of `PIPE_BUF_SIZE` bytes with a read
position, a write position and a count that move on byte by byte. A pipe is named by the
index of its slot; the slot becomes free again once both ends of the pipe are closed.
-/

namespace MerlionKernel.Pipefs

open Rust

/-- `PIPE_BUF_SIZE`. -/
def pipeBufSize : Nat := 4096

/-- `MAX_PIPES`. -/
def maxPipes : Nat := 16

/-- A byte stream in a ring buffer. -/
structure Pipe where
  readBuf : Bytes
  writePos : Nat
  readPos : Nat
  count : Nat
  readers : Nat
  writers : Nat
  closed : Bool

namespace Pipe

/-- An empty pipe with one reader and one writer. -/
def new : Pipe :=
  { readBuf := List.replicate pipeBufSize 0, writePos := 0, readPos := 0, count := 0,
    readers := 1, writers := 1, closed := false }

end Pipe

/-- A slot of the pipe table. -/
inductive PipeSlot
  | free
  | active (pipe : Pipe)

/-- The slot holds no pipe. -/
def PipeSlot.isFree : PipeSlot → Bool
  | free => true
  | active _ => false

/-- The table of all pipes. -/
structure PipeTable where
  slots : List PipeSlot

namespace PipeTable

/-- A table of free slots. -/
def new : PipeTable := { slots := List.replicate maxPipes .free }

/-- Put a new pipe into the first free slot. -/
def alloc (self : PipeTable) : Option Nat × PipeTable :=
  match self.slots.findIdx? PipeSlot.isFree with
  | some i => (some i, { slots := self.slots.set i (.active Pipe.new) })
  | none => (none, self)

end PipeTable

/-! ### Calls

The static `PIPE_TABLE` is `none` until `init` has run. -/

/-- `init`. -/
def init : Option PipeTable := some .new

end MerlionKernel.Pipefs
