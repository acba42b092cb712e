import MerlionKernel.Rust.Fallible

/-!
# The priority queue

The binary heap of `pqueue.rs`, over any type of items. Entries with the same priority are
told apart by the order of their insertion, a counter of 64 bits.

`sift_up` visits ever smaller positions and `sift_down` ever larger ones, which bounds the
rounds of both loops.
-/

namespace MerlionKernel.PQueue

open Rust

variable {T : Type}

/-- `HeapEntry<T>`. -/
structure HeapEntry (T : Type) where
  item : T
  priority : I64
  insertionOrder : Nat

/-- `is_higher_priority`. -/
def HeapEntry.isHigherPriority (self other : HeapEntry T) : Bool :=
  if self.priority ≠ other.priority then self.priority.1 < other.priority.1
  else self.insertionOrder < other.insertionOrder

/-- `PriorityQueue<T>`. -/
structure PriorityQueue (T : Type) where
  heap : List (HeapEntry T)
  nextOrder : Nat

/-! ### Sifting -/

/-- One round of `sift_up`, on the heap and the position. -/
def siftUpRound (s : List (HeapEntry T) × Nat) :
    Exec (ControlFlow (List (HeapEntry T) × Nat) (List (HeapEntry T))) := do
  let (heap, i) := s
  if 0 < i then
    let parent := (i - 1) / 2
    let entry ← index heap i
    let above ← index heap parent
    if entry.isHigherPriority above then
      let heap ← swap heap i parent
      return .again (heap, parent)
    else return .stop heap
  else return .stop heap

/-- `sift_up`. -/
def siftUp (heap : List (HeapEntry T)) (i : Nat) : Exec (List (HeapEntry T)) :=
  loop siftUpRound (i + 1) (heap, i)

/-- `if child < len && heap[child].is_higher_priority(&heap[smallest]) { smallest = child }`. -/
def smaller (heap : List (HeapEntry T)) (smallest child : Nat) : Exec Nat := do
  if child < heap.length then
    let entry ← index heap child
    let least ← index heap smallest
    return if entry.isHigherPriority least then child else smallest
  else return smallest

/-- One round of `sift_down`, on the heap and the position. -/
def siftDownRound (s : List (HeapEntry T) × Nat) :
    Exec (ControlFlow (List (HeapEntry T) × Nat) (List (HeapEntry T))) := do
  let (heap, i) := s
  let smallest ← smaller heap i (2 * i + 1)
  let smallest ← smaller heap smallest (2 * i + 2)
  if smallest = i then return .stop heap
  else
    let heap ← swap heap i smallest
    return .again (heap, smallest)

/-- `sift_down`. -/
def siftDown (heap : List (HeapEntry T)) (i : Nat) : Exec (List (HeapEntry T)) :=
  loop siftDownRound (heap.length + 1) (heap, i)

/-! ### The calls -/

namespace PriorityQueue

/-- `new`. -/
def new : PriorityQueue T := ⟨[], 0⟩

/-- `push`. -/
def push (q : PriorityQueue T) (item : T) (priority : I64) : Exec (PriorityQueue T) := do
  let order := q.nextOrder
  let nextOrder ← u64 (q.nextOrder + 1)
  let heap := q.heap ++ [⟨item, priority, order⟩]
  let last ← sub heap.length 1
  let heap ← siftUp heap last
  return ⟨heap, nextOrder⟩

/-- `pop`. -/
def pop (q : PriorityQueue T) : Exec (Option T × PriorityQueue T) := do
  if q.heap.isEmpty then return (none, q)
  else
    let last ← sub q.heap.length 1
    -- The last entry takes the place of the first and sinks from there.
    let heap ← swap q.heap 0 last
    let (entry, heap) ← popUnwrap heap
    let heap ← (if heap.isEmpty then pure heap else siftDown heap 0)
    return (some entry.item, { q with heap })

/-- `update_priority`. -/
def updatePriority (q : PriorityQueue T) (i : Nat) (newPriority : I64) :
    Exec (Bool × PriorityQueue T) := do
  if q.heap.length ≤ i then return (false, q)
  else
    let entry ← index q.heap i
    let old := entry.priority
    let heap ← store q.heap i { entry with priority := newPriority }
    let heap ←
      (if newPriority.1 < old.1 then siftUp heap i
      else if newPriority.1 > old.1 then siftDown heap i
      else pure heap)
    return (true, { q with heap })

/-- `remove`. -/
def remove (q : PriorityQueue T) (i : Nat) : Exec (Option T × PriorityQueue T) := do
  if q.heap.length ≤ i then return (none, q)
  else
    let last ← sub q.heap.length 1
    if i = last then
      return (q.heap.getLast?.map HeapEntry.item, { q with heap := q.heap.dropLast })
    else
      let heap ← swap q.heap i last
      let (entry, heap) ← popUnwrap heap
      -- The entry that was last may belong above or below the gap it fills.
      let heap ← siftUp heap i
      let heap ← siftDown heap i
      return (some entry.item, { q with heap })

end PriorityQueue

end MerlionKernel.PQueue
