import MerlionKernel.Theory.ReadersWriters
import MerlionKernel.Theory.Run

/-!
# Read-write locks

The read-write locks of `pthread.rs`. A call takes the table lock, tests and changes one entry and
gives the table lock back; a lock that cannot be taken is tried again later. So a run of the system
is a sequence of such guarded steps, of any threads in any order. `rwlock_create` draws its id
before it takes the table lock, and other threads may come in between.

The table does not say who holds a lock. `System.holds` records it beside the table: a hold is added
when a call to take a lock returns 0, and given up when the thread calls `rwlock_unlock`.
-/

namespace MerlionKernel.Pthread

open Rust Theory

universe u

/-- `MAX_RWLOCKS`. -/
def maxRwlocks : Nat := 32

/-- An entry of the table of read-write locks. -/
structure PthreadRwlock where
  id : UInt32
  readers : UInt32
  writer : Bool

/-- `PthreadRwlock::new`. -/
def PthreadRwlock.new (id : UInt32) : PthreadRwlock := { id, readers := 0, writer := false }

/-- The table `RWLOCKS`. -/
abbrev Rwlocks := List (Option PthreadRwlock)

/-- The first lock with the id, and its place in the table. -/
def find (locks : Rwlocks) (id : UInt32) : Option (Nat × PthreadRwlock) :=
  (locks.findIdx? fun slot => slot.any fun rw => rw.id = id).bind fun i =>
    (locks[i]?.join).map fun rw => (i, rw)

/-! ### The guarded steps

A step answers what its call returns, or nothing when the call goes round its loop again. -/

/-- The guarded step of `rwlock_create`. -/
def create (locks : Rwlocks) (id : UInt32) : Rwlocks :=
  if locks.length < maxRwlocks then locks ++ [some (.new id)] else locks

/-- One round of `rwlock_rdlock`. -/
def rdlock (locks : Rwlocks) (id : UInt32) : Option Int × Rwlocks :=
  match find locks id with
  | none => (some (-1), locks)
  | some (i, rw) =>
    if !rw.writer then (some 0, locks.set i (some { rw with readers := rw.readers + 1 }))
    else (none, locks)

/-- One round of `rwlock_wrlock`. -/
def wrlock (locks : Rwlocks) (id : UInt32) : Option Int × Rwlocks :=
  match find locks id with
  | none => (some (-1), locks)
  | some (i, rw) =>
    if !rw.writer && rw.readers == 0 then (some 0, locks.set i (some { rw with writer := true }))
    else (none, locks)

/-- `rwlock_unlock`. -/
def unlock (locks : Rwlocks) (id : UInt32) : Option Int × Rwlocks :=
  match find locks id with
  | none => (some (-1), locks)
  | some (i, rw) =>
    if rw.writer then (some 0, locks.set i (some { rw with writer := false }))
    else (some 0, locks.set i (some { rw with readers := rw.readers - 1 }))

/-! ### Threads -/

/-- The next id, the table, the ids that threads have drawn for a lock they have not added yet,
and the holds, by the place of the lock in the table. -/
structure System (τ : Type u) where
  nextRwlockId : UInt32
  rwlocks : Rwlocks
  drawn : List (τ × UInt32)
  holds : List (Hold τ Nat)

/-- What a thread does next. -/
inductive Event (τ : Type u)
  | draw (t : τ)
  | create (t : τ)
  | rdlock (t : τ) (id : UInt32)
  | wrlock (t : τ) (id : UInt32)
  | unlock (t : τ) (id : UInt32)

variable {τ : Type u}

/-- No locks yet. -/
def System.init : System τ where
  nextRwlockId := 1
  rwlocks := []
  drawn := []
  holds := []

/-- The table after a step, and the holds after one that returned 0. -/
def System.after (s : System τ) (id : UInt32) (turn : Option Int × Rwlocks)
    (change : Nat → List (Hold τ Nat)) : System τ :=
  { s with
    rwlocks := turn.2
    holds := if turn.1 = some 0 then (find s.rwlocks id).elim s.holds fun (i, _) => change i
      else s.holds }

/-- One step of the system. -/
def step [DecidableEq τ] (s : System τ) : Event τ → Exec (System τ)
  | .draw t =>
    return { s with
      nextRwlockId := s.nextRwlockId + 1
      drawn := s.drawn ++ [(t, s.nextRwlockId)] }
  | .create t =>
    match s.drawn.find? fun d => d.1 = t with
    | none => return s
    | some (_, id) =>
      return { s with
        rwlocks := create s.rwlocks id
        drawn := s.drawn.eraseP fun d => d.1 = t }
  | .rdlock t id =>
    return s.after id (rdlock s.rwlocks id) fun i => ⟨t, i, .read⟩ :: s.holds
  | .wrlock t id =>
    return s.after id (wrlock s.rwlocks id) fun i => ⟨t, i, .write⟩ :: s.holds
  | .unlock t id =>
    return s.after id (unlock s.rwlocks id) fun i => release s.holds t i

/-- The locks exclude each other, and the counter and the flag of each agree with its holds. -/
structure Correct (s : System τ) : Prop where
  exclusive : Exclusive s.holds
  tracks : ∀ i rw, s.rwlocks[i]? = some (some rw) → Tracks s.holds i rw.readers.toNat rw.writer

/-- A thread unlocks only a lock it holds. -/
def UnlocksHeld (s : System τ) : Event τ → Prop
  | .unlock t id => ∃ i rw, find s.rwlocks id = some (i, rw) ∧ HasHold s.holds t i
  | _ => True

/-- The step would take the counter below zero. -/
def Underflows (s : System τ) : Event τ → Prop
  | .unlock _ id => ∃ i rw, find s.rwlocks id = some (i, rw) ∧ rw.writer = false ∧ rw.readers = 0
  | _ => False

/-- The counter can count one more read hold. -/
def Fits (s : System τ) : Event τ → Prop
  | .rdlock _ id => ∀ i rw, find s.rwlocks id = some (i, rw) →
      countHolds s.holds i .read + 1 < 4294967296
  | _ => True

/-- A step that unlocks only what is held, and that the counter can count. -/
def Lawful (s : System τ) (event : Event τ) : Prop := UnlocksHeld s event ∧ Fits s event

end MerlionKernel.Pthread
