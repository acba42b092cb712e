import MerlionKernel.Rust.Each
import MerlionKernel.Theory.Registry

/-!
# The real-time scheduler

`rt_sched.rs` keeps the real-time tasks in a vector and the priority inheritance boosts in
another. `schedule_next` marks the most urgent ready task as running, and `tick` makes tasks
ready again when their period has elapsed. The calls do nothing before `init`; the model is of
the scheduler after it.
-/

namespace MerlionKernel.RtSched

open Rust Theory

/-- `MAX_RT_TASKS`. -/
def maxRtTasks : Nat := 64

/-- `MAX_PI_ENTRIES`. -/
def maxPiEntries : Nat := 32

/-- Scheduling policy of a task. -/
inductive RtPolicy
  | fifo
  | roundRobin
  | edf
  | rateMonotonic
  deriving DecidableEq

/-- Execution state of a task. -/
inductive RtState
  | ready
  | running
  | blocked
  | completed
  deriving DecidableEq

/-- A real-time task. -/
structure RtTask where
  id : Nat
  name : String
  policy : RtPolicy
  priority : Nat
  periodTicks : Nat
  deadlineTicks : Nat
  wcetTicks : Nat
  state : RtState
  createdTick : Nat
  lastRun : Nat
  missCount : Nat
  runCount : Nat
  deriving DecidableEq

/-- A priority inheritance boost of a task. -/
structure PriorityInheritance where
  holderId : Nat
  originalPriority : Nat
  boostedPriority : Nat
  resourceId : Nat

/-- The state of the scheduler. -/
structure RtSchedInner where
  tasks : List RtTask
  piEntries : List PriorityInheritance
  nextId : Nat
  currentTick : Nat
  rrIndex : Nat

namespace RtSchedInner

/-- No task and no boost. -/
def new : RtSchedInner :=
  { tasks := [], piEntries := [], nextId := 1, currentTick := 0, rrIndex := 0 }

/-- The highest boost of a task, or its own priority when it has none. -/
def effectivePriority (self : RtSchedInner) (task : RtTask) : Nat :=
  ((self.piEntries.filter fun pi => pi.holderId = task.id).map
    PriorityInheritance.boostedPriority).max?.getD task.priority

/-- The first task with a number. -/
def find (self : RtSchedInner) (id : Nat) : Option RtTask := lookup RtTask.id self.tasks id

end RtSchedInner

/-! ### Tasks -/

/-- Create a task; priorities are at most 99. -/
def createRtTask (inner : RtSchedInner) (name : String) (policy : RtPolicy)
    (priority period deadline wcet : Nat) : Exec (Option Nat × RtSchedInner) :=
  if inner.tasks.length ≥ maxRtTasks then return (none, inner)
  else do
    let id := inner.nextId
    let nextId ← u32 (inner.nextId + 1)
    let deadlineTicks ← u64 (inner.currentTick + deadline)
    let task : RtTask :=
      { id, name, policy, priority := min priority 99, periodTicks := period, deadlineTicks,
        wcetTicks := wcet, state := .ready, createdTick := inner.currentTick, lastRun := 0,
        missCount := 0, runCount := 0 }
    return (some id, { inner with tasks := inner.tasks ++ [task], nextId })

/-- Remove a task and its boosts. -/
def removeRtTask (inner : RtSchedInner) (id : Nat) : Bool × RtSchedInner :=
  ((inner.find id).isSome,
    { inner with
      piEntries := inner.piEntries.filter fun pi => pi.holderId ≠ id
      tasks := discard RtTask.id inner.tasks id })

/-! ### Priority inheritance -/

/-- Boost the holder of a resource to the priority of a task that waits for it. A task that
does not exist counts with priority 0. -/
def priorityBoost (inner : RtSchedInner) (holderId blockerId resourceId : Nat) : RtSchedInner :=
  if inner.piEntries.length ≥ maxPiEntries then inner
  else
    let holderPri := ((inner.find holderId).map RtTask.priority).getD 0
    let blockerPri := ((inner.find blockerId).map inner.effectivePriority).getD 0
    if blockerPri > holderPri then
      { inner with
        piEntries := inner.piEntries ++
          [{ holderId, originalPriority := holderPri, boostedPriority := blockerPri, resourceId }] }
    else inner

/-- Remove all boosts of a task. -/
def priorityRestore (inner : RtSchedInner) (holderId : Nat) : RtSchedInner :=
  { inner with piEntries := inner.piEntries.filter fun pi => pi.holderId ≠ holderId }

/-! ### Scheduling -/

/-- How urgent the task at an index is; lower is more urgent. -/
def score (inner : RtSchedInner) (idx : Nat) (task : RtTask) : Exec Nat :=
  let effPri := inner.effectivePriority task
  match task.policy with
  | .edf => return task.deadlineTicks
  | .rateMonotonic => return task.periodTicks
  | .fifo => return 100 - effPri
  | .roundRobin => do
    let base := 100 - effPri
    let turn ← rem inner.rrIndex inner.tasks.length
    return if idx = turn then base - 1 else base

/-- The indices of the ready tasks. -/
def readyIndices (inner : RtSchedInner) : List Nat :=
  (inner.tasks.zipIdx.filter fun (t, _) => t.state = .ready).map Prod.snd

/-- One round of the loop in `schedule_next`, with the best index and score so far. -/
def pickRound (inner : RtSchedInner) (best : Option Nat × Nat) (idx : Nat) :
    Exec (Option Nat × Nat) := do
  let (bestIdx, bestScore) := best
  let task ← index inner.tasks idx
  let score ← score inner idx task
  return if bestIdx = none ∨ score < bestScore then (some idx, score) else (bestIdx, bestScore)

/-- The index of the most urgent ready task. -/
def pickNext (inner : RtSchedInner) : Exec (Option Nat) := do
  let (bestIdx, _) ← (readyIndices inner).foldlM (pickRound inner) (none, 2 ^ 64 - 1)
  return bestIdx

/-- Mark the most urgent ready task as running. -/
def scheduleNext (inner : RtSchedInner) : Exec (Option Nat × RtSchedInner) := do
  if readyIndices inner = [] then return (none, inner)
  else
    match ← pickNext inner with
    | none => return (none, inner)
    | some idx => do
      let task ← index inner.tasks idx
      let runCount ← u64 (task.runCount + 1)
      let rrIndex ← u64 (idx + 1)
      let task := { task with state := .running, runCount, lastRun := inner.currentTick }
      return (some task.id, { inner with tasks := inner.tasks.set idx task, rrIndex })

/-- Count a miss of a ready task past its deadline. -/
def checkDeadline (now : Nat) (task : RtTask) : Exec RtTask :=
  if task.state = .ready ∧ now > task.deadlineTicks then do
    let missCount ← u32 (task.missCount + 1)
    let deadlineTicks ← u64 (now + task.periodTicks)
    return { task with missCount, deadlineTicks }
  else return task

/-- Check all tasks for deadline misses. -/
def checkDeadlines (inner : RtSchedInner) : Exec RtSchedInner := do
  let tasks ← each (checkDeadline inner.currentTick) inner.tasks
  return { inner with tasks }

/-- Make a task ready again when its period has elapsed. -/
def resetPeriodic (now : Nat) (task : RtTask) : Exec RtTask :=
  if (task.state = .running ∨ task.state = .completed) ∧ task.periodTicks > 0 then do
    let next ← u64 (task.lastRun + task.periodTicks)
    if now ≥ next then do
      let deadlineTicks ← u64 (now + task.periodTicks)
      return { task with state := .ready, deadlineTicks }
    else return task
  else return task

/-- The timer interrupt. -/
def tick (inner : RtSchedInner) : Exec RtSchedInner := do
  let now ← u64 (inner.currentTick + 1)
  let tasks ← each (resetPeriodic now) inner.tasks
  let tasks ← each (checkDeadline now) tasks
  return { inner with tasks, currentTick := now }

/-! ### The loop of `schedule_next` -/

theorem mem_readyIndices {inner : RtSchedInner} {idx : Nat} :
    idx ∈ readyIndices inner ↔ ∃ task, inner.tasks[idx]? = some task ∧ task.state = .ready := by
  simp [readyIndices, List.mem_zipIdx_iff_getElem?]

theorem score_returns {inner : RtSchedInner} (hpos : inner.tasks ≠ []) (idx : Nat) (task : RtTask) :
    ∃ n, score inner idx task = .ok n := by
  have hlen : inner.tasks.length ≠ 0 := mt List.length_eq_zero_iff.mp hpos
  unfold score
  cases task.policy with
  | fifo => exact ⟨_, rfl⟩
  | edf => exact ⟨_, rfl⟩
  | rateMonotonic => exact ⟨_, rfl⟩
  | roundRobin =>
    simp only [rem, if_neg hlen, ok_bind]
    exact ⟨_, rfl⟩

/-- The loop finds one of the ready tasks, if there is any. -/
theorem pickNext_returns {inner : RtSchedInner} (h : readyIndices inner ≠ []) :
    Returns (pickNext inner) fun best => ∃ idx ∈ readyIndices inner, best = some idx := by
  -- After each round the best index is one of those visited.
  have hloop := foldlM_returns (f := pickRound inner)
    (fun visited (best : Option Nat × Nat) =>
      (visited = [] ∧ best.1 = none) ∨ ∃ idx ∈ visited, best.1 = some idx)
    (readyIndices inner) (s := (none, 2 ^ 64 - 1)) ?_ (.inl ⟨rfl, rfl⟩)
  · refine hloop.bind ?_
    rintro ⟨bestIdx, bestScore⟩ (⟨hnil, -⟩ | hbest)
    · exact absurd hnil h
    · exact .ok hbest
  · rintro visited idx rest ⟨bestIdx, bestScore⟩ hsplit hbest
    have hmem : idx ∈ readyIndices inner := by simp [hsplit]
    obtain ⟨task, htask, -⟩ := mem_readyIndices.mp hmem
    have hpos : inner.tasks ≠ [] := by
      rintro heq
      simp [heq] at htask
    obtain ⟨n, hn⟩ := score_returns hpos idx task
    simp only [pickRound, index_eq_ok_iff.mpr htask, ok_bind, hn]
    refine .ok (.inr ?_)
    split_ifs with hbetter
    · exact ⟨idx, by simp, rfl⟩
    · obtain ⟨hsome, -⟩ := not_or.mp hbetter
      rcases hbest with ⟨-, hnone⟩ | ⟨best, hvisited, hbest⟩
      · exact absurd hnone hsome
      · exact ⟨best, List.mem_append_left _ hvisited, hbest⟩

end MerlionKernel.RtSched
