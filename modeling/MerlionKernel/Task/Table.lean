import MerlionKernel.Task.Machine
import Mathlib.Data.Fin.VecNotation
import Mathlib.Data.Fintype.Pi

/-!
# The task table

The table of `task.rs` has eight slots, the first of which is the kernel's. `CURRENT` is
the slot of the task in control. `spawn` takes the first slot that is empty or whose task
has finished, and drops what was there, the stack included; `kill` and `exit` mark a task
as finished, also the one in control.

The commands of the shell run inside the keyboard interrupt, on the stack of whatever task
is in control, so any call can happen in any state. The task that is actually executing is
the one on whose stack the machine is.
-/

namespace MerlionKernel.Task

open Rust Theory

/-- `MAX_TASKS`. -/
def maxTasks : Nat := 8

abbrev SlotId := Fin maxTasks

instance : @NeZero Nat Zero.ofOfNat0 maxTasks := ⟨Nat.succ_ne_zero 7⟩

inductive TaskState
  | ready
  | running
  | finished
  deriving DecidableEq

/-- An occupied slot. A task without a stack of its own is the kernel. -/
structure Occupied where
  pid : Nat
  state : TaskState
  rsp : Ptr
  stack : Option Nat

/-- The stack the task runs on; the kernel has the boot stack. -/
def Occupied.runsOn (t : Occupied) : Nat := t.stack.getD 0

/-- The slots; an empty one is `none`. -/
abbrev Tasks := SlotId → Option Occupied

/-- The slots with the task in slot `i`, if there is one, changed by `f`. -/
def Tasks.modify (tasks : Tasks) (i : SlotId) (f : Occupied → Occupied) : Tasks :=
  Function.update tasks i ((tasks i).map f)

/-- The state of the task system. -/
structure Scheduler where
  tasks : Tasks
  current : SlotId
  nextPid : Nat
  machine : Machine

namespace Scheduler

/-- `init`, on the boot stack. -/
def init (boot : Machine) : Scheduler :=
  { tasks := fun i =>
      if i = 0 then some { pid := 0, state := .running, rsp := ⟨0, 0⟩, stack := none } else none
    current := 0
    nextPid := 1
    machine := boot }

/-- A slot that `spawn` may take. -/
def reusable : Option Occupied → Bool
  | none => true
  | some t => t.state = .finished

/-- The slot that `spawn` takes: the first one it may, the kernel's apart. -/
def freeSlot (s : Scheduler) : Option SlotId :=
  (List.finRange maxTasks).tail.find? fun i => reusable (s.tasks i)

/-- The stacks after the one that a slot owns was dropped. -/
def dropStack (memory : List (Option (List Word))) : Option Occupied → List (Option (List Word))
  | some { stack := some stack, .. } => memory.set stack none
  | _ => memory

/-- `spawn`. The pid is taken from a counter that wraps, also when no slot is free; the
stack allocated for the task is then dropped again. -/
def spawn (taskWrapper : Word) (s : Scheduler) (entry : Word) : Option Nat × Scheduler :=
  let pid := s.nextPid
  let nextPid := (s.nextPid + 1) % 2 ^ 64
  let stack := s.machine.memory.length
  match s.freeSlot with
  | some i =>
    -- Assigning the slot drops the finished task in it, be it the one in control.
    let memory := dropStack (s.machine.memory ++ [some (newStack taskWrapper entry)]) (s.tasks i)
    let task := { pid, state := .ready, rsp := ⟨stack, stackWords - 7⟩, stack := some stack }
    (some pid,
      { s with
        tasks := Function.update s.tasks i (some task)
        nextPid
        machine := { s.machine with memory } })
  | none =>
    (none, { s with nextPid, machine := { s.machine with memory := s.machine.memory ++ [none] } })

/-- A slot that `kill` is looking for. -/
def isTarget (targetPid : Nat) : Option Occupied → Bool
  | none => false
  | some t => t.pid = targetPid ∧ t.state ≠ .finished

/-- `kill`. -/
def kill (s : Scheduler) (targetPid : Nat) : Except String Unit × Scheduler :=
  if targetPid = 0 then (.error "cannot kill kernel task", s)
  else
    match (List.finRange maxTasks).find? fun i => isTarget targetPid (s.tasks i) with
    | some i => (.ok (), { s with tasks := s.tasks.modify i ({ · with state := .finished }) })
    | none => (.error "task not found", s)

def isReady : Option Occupied → Bool
  | none => false
  | some t => t.state = .ready

/-- The first ready slot among the next `n` from `next` on. -/
def nextReady (tasks : Tasks) : Nat → SlotId → Option SlotId
  | 0, _ => none
  | n + 1, next => if isReady (tasks next) then some next else nextReady tasks n (next + 1)

/-- The states after the turn has passed from one slot to another. -/
def passTurn (tasks : Tasks) (current next : SlotId) : Tasks :=
  (tasks.modify current fun t =>
      if t.state = .running then { t with state := .ready } else t).modify
    next ({ · with state := .running })

/-- `yield_now`. -/
def yieldNow (s : Scheduler) : Exec Scheduler :=
  match nextReady s.tasks maxTasks (s.current + 1) with
  | none => return s
  | some next =>
    if next = s.current then return s
    else
      let tasks := passTurn s.tasks s.current next
      match tasks s.current, tasks next with
      | some _, some new => do
        -- `CURRENT` is already stored when the switch happens; the states are as above.
        let machine ← callContextSwitch s.machine new.rsp
        return { s with
          tasks := tasks.modify s.current ({ · with rsp := machine.cell })
          current := next
          machine }
      | _, _ => return { s with tasks }

/-- `exit`. When `yield_now` comes back the processor halts, still on the stack of the task
that exited. -/
def exit (s : Scheduler) : Exec Scheduler :=
  yieldNow { s with tasks := s.tasks.modify s.current ({ · with state := .finished }) }

/-- `timer_tick`. -/
def timerTick (s : Scheduler) : Exec Scheduler :=
  if (List.finRange maxTasks).any fun i => i ≠ s.current ∧ isReady (s.tasks i) then s.yieldNow
  else return s

end Scheduler

/-- The calls on the task system, and the work of the task in control between them. -/
inductive Call
  | spawn (entry : Word)
  | kill (targetPid : Nat)
  | yieldNow
  | exit
  | timerTick
  | work (w : Machine.Work)

def Scheduler.step (taskWrapper : Word) (s : Scheduler) : Call → Exec Scheduler
  | .spawn entry => return (s.spawn taskWrapper entry).2
  | .kill targetPid => return (s.kill targetPid).2
  | .yieldNow => s.yieldNow
  | .exit => s.exit
  | .timerTick => s.timerTick
  | .work w => do
    let machine ← s.machine.work w
    return { s with machine }

/-- The table describes what is executing: the slot in control holds the task on whose
stack the machine is, no other task is marked as running, and live tasks have different
pids. -/
structure Coherent (s : Scheduler) : Prop where
  executing : ∃ t, s.tasks s.current = some t ∧ t.runsOn = s.machine.rsp.stack
  running : ∀ i t, s.tasks i = some t → t.state = .running → i = s.current
  pids : ∀ i j t u, s.tasks i = some t → s.tasks j = some u → t.state ≠ .finished →
    u.state ≠ .finished → t.pid = u.pid → i = j

/-- A `spawn` that finds a free slot finds one that is not in control, and takes a pid that
no live task has. -/
def Tidy (s : Scheduler) : Call → Prop
  | .spawn _ => ∀ i, s.freeSlot = some i → i ≠ s.current ∧
      ∀ j t, s.tasks j = some t → t.state ≠ .finished → t.pid ≠ s.nextPid
  | _ => True

/-! ### Changing slots -/

namespace Tasks

theorem modify_self (tasks : Tasks) (i : SlotId) (f : Occupied → Occupied) :
    tasks.modify i f i = (tasks i).map f :=
  Function.update_self ..

theorem modify_of_ne (tasks : Tasks) {i j : SlotId} (h : j ≠ i) (f : Occupied → Occupied) :
    tasks.modify i f j = tasks j :=
  Function.update_of_ne h ..

/-- A task of the modified table: the modified one, or one in another slot. -/
theorem of_modify {tasks : Tasks} {i j : SlotId} {f : Occupied → Occupied} {t' : Occupied}
    (h : tasks.modify i f j = some t') :
    (j = i ∧ ∃ t, tasks j = some t ∧ t' = f t) ∨ j ≠ i ∧ tasks j = some t' := by
  by_cases hj : j = i
  · subst hj
    rw [modify_self] at h
    obtain ⟨t, ht, rfl⟩ := Option.map_eq_some_iff.mp h
    exact Or.inl ⟨rfl, t, ht, rfl⟩
  · rw [modify_of_ne _ hj] at h
    exact Or.inr ⟨hj, h⟩

/-- The tasks of one table are those of another in the same slots. They have the same pids
and stacks, and none has come back to life. -/
def Continues (tasks tasks' : Tasks) : Prop :=
  ∀ i t', tasks' i = some t' → ∃ t, tasks i = some t ∧ t'.pid = t.pid ∧ t'.stack = t.stack ∧
    (t'.state ≠ .finished → t.state ≠ .finished)

theorem continues_modify (tasks : Tasks) (i : SlotId) {f : Occupied → Occupied}
    (hpid : ∀ t, (f t).pid = t.pid) (hstack : ∀ t, (f t).stack = t.stack)
    (hstate : ∀ t, (f t).state ≠ .finished → t.state ≠ .finished ∨ tasks i ≠ some t) :
    Continues tasks (tasks.modify i f) := by
  intro j t' ht'
  rcases of_modify ht' with ⟨rfl, t, ht, rfl⟩ | ⟨-, ht⟩
  · exact ⟨t, ht, hpid t, hstack t, fun h => (hstate t h).resolve_right (absurd ht)⟩
  · exact ⟨t', ht, rfl, rfl, id⟩

/-- Live tasks have different pids, and all tasks different stacks among the first `n`. -/
structure Distinct (tasks : Tasks) (n : Nat) : Prop where
  pids : ∀ i j t u, tasks i = some t → tasks j = some u → t.state ≠ .finished →
    u.state ≠ .finished → t.pid = u.pid → i = j
  own : ∀ i j t u, tasks i = some t → tasks j = some u → t.runsOn = u.runsOn → i = j
  allocated : ∀ i t, tasks i = some t → t.runsOn < n

theorem Distinct.of_continues {tasks tasks' : Tasks} {n n' : Nat} (h : Distinct tasks n)
    (hc : Continues tasks tasks') (hn : n ≤ n') : Distinct tasks' n' := by
  have hruns : ∀ {t t' : Occupied}, t'.stack = t.stack → t'.runsOn = t.runsOn := by
    intro t t' hstack
    rw [Occupied.runsOn, Occupied.runsOn, hstack]
  refine ⟨?_, ?_, ?_⟩
  · intro i j t' u' ht' hu' hlive hlive' heq
    obtain ⟨t, ht, hpid, -, hstate⟩ := hc i t' ht'
    obtain ⟨u, hu, hpid', -, hstate'⟩ := hc j u' hu'
    exact h.pids i j t u ht hu (hstate hlive) (hstate' hlive') (by rw [← hpid, ← hpid', heq])
  · intro i j t' u' ht' hu' heq
    obtain ⟨t, ht, -, hstack, -⟩ := hc i t' ht'
    obtain ⟨u, hu, -, hstack', -⟩ := hc j u' hu'
    exact h.own i j t u ht hu (by rw [← hruns hstack, ← hruns hstack', heq])
  · intro i t' ht'
    obtain ⟨t, ht, -, hstack, -⟩ := hc i t' ht'
    rw [hruns hstack]
    exact Nat.lt_of_lt_of_le (h.allocated i t ht) hn

/-- A new task in a slot, with a pid that no live task has and the next stack. -/
theorem Distinct.insert {tasks : Tasks} {n : Nat} (h : Distinct tasks n) (i : SlotId)
    {new : Occupied} (hpid : ∀ j t, tasks j = some t → t.state ≠ .finished → t.pid ≠ new.pid)
    (hstack : new.runsOn = n) : Distinct (Function.update tasks i (some new)) (n + 1) := by
  -- A task of the new table is the new one, or an old one in another slot.
  have hlook : ∀ j t, Function.update tasks i (some new) j = some t →
      j = i ∧ t = new ∨ tasks j = some t := by
    intro j t ht
    by_cases hj : j = i
    · subst hj
      rw [Function.update_self] at ht
      exact Or.inl ⟨rfl, (Option.some.inj ht).symm⟩
    · rw [Function.update_of_ne hj] at ht
      exact Or.inr ht
  refine ⟨?_, ?_, ?_⟩
  · intro j k t u ht hu hlive hlive' heq
    rcases hlook j t ht with ⟨rfl, rfl⟩ | hold
    · rcases hlook k u hu with ⟨rfl, rfl⟩ | hold'
      · rfl
      · exact absurd heq.symm (hpid k u hold' hlive')
    · rcases hlook k u hu with ⟨rfl, rfl⟩ | hold'
      · exact absurd heq (hpid j t hold hlive)
      · exact h.pids j k t u hold hold' hlive hlive' heq
  · intro j k t u ht hu heq
    rcases hlook j t ht with ⟨rfl, rfl⟩ | hold
    · rcases hlook k u hu with ⟨rfl, rfl⟩ | hold'
      · rfl
      · have := h.allocated k u hold'
        omega
    · rcases hlook k u hu with ⟨rfl, rfl⟩ | hold'
      · have := h.allocated j t hold
        omega
      · exact h.own j k t u hold hold' heq
  · intro j t ht
    rcases hlook j t ht with ⟨-, rfl⟩ | hold
    · omega
    · exact Nat.lt_succ_of_lt (h.allocated j t hold)

end Tasks

/-! ### The invariant -/

/-- A coherent table in which every live task that is not in control has its own stack
pointer saved. -/
structure Settled (s : Scheduler) : Prop where
  distinct : s.tasks.Distinct s.machine.memory.length
  executing : ∃ t, s.tasks s.current = some t ∧ t.runsOn = s.machine.rsp.stack
  running : ∀ i t, s.tasks i = some t → t.state = .running → i = s.current
  saved : ∀ i t, s.tasks i = some t → i ≠ s.current → t.state ≠ .finished →
    t.rsp.stack = t.runsOn

namespace Settled

variable {taskWrapper : Word} {s s' : Scheduler}

theorem coherent (h : Settled s) : Coherent s :=
  ⟨h.executing, h.running, h.distinct.pids⟩

theorem init {boot : Machine} (hstack : boot.rsp.stack = 0) (hmem : boot.memory ≠ []) :
    Settled (.init boot) := by
  have hzero : ∀ i t, (Scheduler.init boot).tasks i = some t →
      i = 0 ∧ t = { pid := 0, state := .running, rsp := ⟨0, 0⟩, stack := none } := by
    intro i t ht
    simp only [Scheduler.init] at ht
    split at ht
    · exact ⟨‹_›, (Option.some.inj ht).symm⟩
    · cases ht
  refine ⟨⟨?_, ?_, ?_⟩, ⟨_, rfl, hstack.symm⟩, ?_, ?_⟩
  · intro i j t u ht hu _ _ _
    rw [(hzero i t ht).1, (hzero j u hu).1]
  · intro i j t u ht hu _
    rw [(hzero i t ht).1, (hzero j u hu).1]
  · intro i t ht
    rw [(hzero i t ht).2]
    exact List.length_pos_of_ne_nil hmem
  · intro i t ht _
    exact (hzero i t ht).1
  · intro i t ht hi
    exact absurd (hzero i t ht).1 hi

/-- Marking a task as finished, in control or not. -/
theorem finish (h : Settled s) (i : SlotId) :
    Settled { s with tasks := s.tasks.modify i ({ · with state := .finished }) } := by
  refine ⟨h.distinct.of_continues (Tasks.continues_modify _ _ ?_ ?_ ?_) (Nat.le_refl _), ?_, ?_, ?_⟩
  · exact fun _ => rfl
  · exact fun _ => rfl
  · exact fun _ hlive => absurd rfl hlive
  · obtain ⟨t, ht, hruns⟩ := h.executing
    by_cases hi : s.current = i
    · subst hi
      refine ⟨{ t with state := .finished }, ?_, hruns⟩
      simp only [Tasks.modify_self, ht, Option.map_some]
    · exact ⟨t, (Tasks.modify_of_ne _ hi _).trans ht, hruns⟩
  · intro j t ht hstate
    rcases Tasks.of_modify ht with ⟨-, u, -, rfl⟩ | ⟨-, hold⟩
    · cases hstate
    · exact h.running j t hold hstate
  · intro j t ht hcur hlive
    rcases Tasks.of_modify ht with ⟨-, u, -, rfl⟩ | ⟨-, hold⟩
    · exact absurd rfl hlive
    · exact h.saved j t hold hcur hlive

theorem kill (h : Settled s) (targetPid : Nat) : Settled (s.kill targetPid).2 := by
  unfold Scheduler.kill
  split
  · exact h
  · split
    · exact h.finish _
    · exact h

theorem work (h : Settled s) {w : Machine.Work} {m : Machine}
    (hwork : s.machine.work w = .ok m) : Settled { s with machine := m } := by
  have hstays := stays_of_work hwork
  obtain ⟨t, ht, hruns⟩ := h.executing
  refine ⟨?_, ⟨t, ht, hruns.trans hstays.stack.symm⟩, h.running, h.saved⟩
  simp only [hstays.length]
  exact h.distinct

theorem length_dropStack (memory : List (Option (List Word))) (slot : Option Occupied) :
    (Scheduler.dropStack memory slot).length = memory.length := by
  unfold Scheduler.dropStack
  split
  · exact List.length_set ..
  · rfl

theorem spawn (h : Settled s) {entry : Word} (htidy : Tidy s (.spawn entry)) :
    Settled (s.spawn taskWrapper entry).2 := by
  unfold Scheduler.spawn
  obtain ⟨t₀, ht₀, hruns₀⟩ := h.executing
  split
  · rename_i i hi
    obtain ⟨hcur, hpid⟩ := htidy i hi
    refine ⟨?_, ⟨t₀, (Function.update_of_ne hcur.symm ..).trans ht₀, hruns₀⟩, ?_, ?_⟩
    · simp only [length_dropStack, List.length_append, List.length_singleton]
      exact h.distinct.insert i hpid rfl
    · intro j t ht hstate
      by_cases hj : j = i
      · subst hj
        simp only [Function.update_self, Option.some.injEq] at ht
        subst ht
        cases hstate
      · exact h.running j t ((Function.update_of_ne hj ..).symm.trans ht) hstate
    · intro j t ht hne hlive
      by_cases hj : j = i
      · subst hj
        simp only [Function.update_self, Option.some.injEq] at ht
        subst ht
        rfl
      · exact h.saved j t ((Function.update_of_ne hj ..).symm.trans ht) hne hlive
  · refine ⟨h.distinct.of_continues (fun i t ht => ⟨t, ht, rfl, rfl, id⟩) ?_, ⟨t₀, ht₀, hruns₀⟩,
      h.running, h.saved⟩
    simp

/-! ### Passing the turn -/

theorem isReady_of_nextReady {tasks : Tasks} {n : Nat} {from_ next : SlotId}
    (h : Scheduler.nextReady tasks n from_ = some next) :
    Scheduler.isReady (tasks next) = true := by
  induction n generalizing from_ with
  | zero => cases h
  | succ n ih =>
    unfold Scheduler.nextReady at h
    split at h
    · obtain rfl := Option.some.inj h
      assumption
    · exact ih h

/-- A task after the turn has passed and the old stack pointer is saved. -/
theorem of_passTurn {tasks : Tasks} {current next i : SlotId} {cell : Ptr} {t' : Occupied}
    (hne : next ≠ current)
    (h : (Scheduler.passTurn tasks current next).modify current ({ · with rsp := cell }) i =
      some t') :
    ∃ t, tasks i = some t ∧ t'.pid = t.pid ∧ t'.stack = t.stack ∧
      (i = current ∧ t'.rsp = cell ∧ t'.state ≠ .running ∧
          (t'.state ≠ .finished → t.state ≠ .finished) ∨
        i = next ∧ t' = { t with state := .running } ∨
        i ≠ current ∧ i ≠ next ∧ t' = t) := by
  unfold Scheduler.passTurn at h
  rcases Tasks.of_modify h with ⟨rfl, u, hu, rfl⟩ | ⟨hcur, hu⟩
  · rw [Tasks.modify_of_ne _ hne.symm] at hu
    rcases Tasks.of_modify hu with ⟨-, t, ht, rfl⟩ | ⟨habs, -⟩
    · refine ⟨t, ht, ?_⟩
      by_cases hstate : t.state = .running
      · simp [hstate]
      · simp [hstate]
    · exact absurd rfl habs
  · rcases Tasks.of_modify hu with ⟨rfl, t, ht, rfl⟩ | ⟨hnext, ht⟩
    · rw [Tasks.modify_of_ne _ hne] at ht
      exact ⟨t, ht, rfl, rfl, Or.inr (Or.inl ⟨rfl, rfl⟩)⟩
    · rw [Tasks.modify_of_ne _ hcur] at ht
      exact ⟨t', ht, rfl, rfl, Or.inr (Or.inr ⟨hcur, hnext, rfl⟩)⟩

theorem passTurn_next {tasks : Tasks} {current next : SlotId} (hne : next ≠ current) :
    Scheduler.passTurn tasks current next next =
      (tasks next).map ({ · with state := .running }) := by
  rw [Scheduler.passTurn, Tasks.modify_self, Tasks.modify_of_ne _ hne]

theorem passTurn_current {tasks : Tasks} {current next : SlotId} (hne : next ≠ current)
    {t : Occupied} (ht : tasks current = some t) :
    ∃ t', Scheduler.passTurn tasks current next current = some t' := by
  rw [Scheduler.passTurn, Tasks.modify_of_ne _ hne.symm, Tasks.modify_self, ht]
  exact ⟨_, rfl⟩

theorem yieldNow (h : Settled s) (hyield : s.yieldNow = .ok s') : Settled s' := by
  unfold Scheduler.yieldNow at hyield
  split at hyield
  · cases hyield
    exact h
  · rename_i next hnext
    split at hyield
    · cases hyield
      exact h
    · rename_i hne
      obtain ⟨old, hold, hruns⟩ := h.executing
      obtain ⟨new, hnew, hready⟩ : ∃ new, s.tasks next = some new ∧ new.state = .ready := by
        have := isReady_of_nextReady hnext
        unfold Scheduler.isReady at this
        split at this
        · cases this
        · exact ⟨_, ‹_›, of_decide_eq_true this⟩
      obtain ⟨old', hold'⟩ := passTurn_current hne hold
      simp only [hold', passTurn_next hne, hnew, Option.map_some] at hyield
      obtain ⟨m, hm, hs'⟩ := bind_eq_ok_iff.mp hyield
      cases hs'
      obtain ⟨hrsp, hcell, hlength⟩ := stack_of_callContextSwitch hm
      have hsaved := h.saved next new hnew hne (by simp [hready])
      refine ⟨?_, ?_, ?_, ?_⟩
      · simp only [hlength]
        refine h.distinct.of_continues (fun i t' ht' => ?_) (Nat.le_refl _)
        obtain ⟨t, ht, hpid, hstack, hcases⟩ := of_passTurn hne ht'
        refine ⟨t, ht, hpid, hstack, ?_⟩
        rcases hcases with ⟨-, -, -, hstate⟩ | ⟨rfl, -⟩ | ⟨-, -, rfl⟩
        · exact hstate
        · intro _
          obtain rfl := Option.some.inj (ht.symm.trans hnew)
          simp [hready]
        · exact id
      · refine ⟨{ new with state := .running }, ?_, ?_⟩
        · simp only [Tasks.modify_of_ne _ hne, passTurn_next hne, hnew, Option.map_some]
        · exact hsaved.symm.trans hrsp.symm
      · intro i t' ht' hstate
        obtain ⟨t, ht, -, -, hcases⟩ := of_passTurn hne ht'
        rcases hcases with ⟨-, -, hnot, -⟩ | ⟨rfl, -⟩ | ⟨hcur, -, rfl⟩
        · exact absurd hstate hnot
        · rfl
        · exact absurd (h.running i t' ht hstate) hcur
      · intro i t' ht' hi hlive
        obtain ⟨t, ht, -, hstack, hcases⟩ := of_passTurn hne ht'
        rcases hcases with ⟨rfl, hrsp', -, -⟩ | ⟨rfl, -⟩ | ⟨hcur, -, rfl⟩
        · -- The task that gave up the turn: its stack pointer was saved by the switch.
          obtain rfl := Option.some.inj (ht.symm.trans hold)
          rw [hrsp', hcell, ← hruns, Occupied.runsOn, Occupied.runsOn, hstack]
        · exact absurd rfl hi
        · exact h.saved i t' ht hcur hlive

theorem step (h : Settled s) {call : Call} (htidy : Tidy s call)
    (hstep : s.step taskWrapper call = .ok s') : Settled s' := by
  cases call with
  | spawn entry =>
    cases hstep
    exact h.spawn htidy
  | kill targetPid =>
    cases hstep
    exact h.kill targetPid
  | yieldNow => exact h.yieldNow hstep
  | exit => exact (h.finish s.current).yieldNow hstep
  | timerTick =>
    simp only [Scheduler.step, Scheduler.timerTick] at hstep
    split at hstep
    · exact h.yieldNow hstep
    · cases hstep
      exact h
  | work w =>
    obtain ⟨m, hm, hs'⟩ := bind_eq_ok_iff.mp hstep
    cases hs'
    exact h.work hm

/-- A `spawn` into the slot in control, or with a live pid, leaves an incoherent table. -/
theorem incoherent (h : Settled s) {call : Call} (huntidy : ¬ Tidy s call) :
    ∃ s', s.step taskWrapper call = .ok s' ∧ ¬ Coherent s' := by
  cases call with
  | spawn entry =>
    refine ⟨_, rfl, fun hcoherent => huntidy fun i hi => ?_⟩
    simp only [Scheduler.spawn, hi] at hcoherent
    have hfree : Scheduler.reusable (s.tasks i) = true := by
      have := List.find?_some hi
      exact this
    constructor
    · rintro rfl
      obtain ⟨t, ht, hruns⟩ := h.executing
      have hlt := h.distinct.allocated _ t ht
      obtain ⟨t', ht', hruns'⟩ := hcoherent.executing
      simp only [Function.update_self, Option.some.injEq] at ht'
      subst ht'
      simp only [Occupied.runsOn, Option.getD_some] at hruns' hruns hlt
      omega
    · intro j t ht hlive heq
      have hj : j ≠ i := by
        rintro rfl
        rw [ht] at hfree
        exact hlive (of_decide_eq_true hfree)
      refine hj (hcoherent.pids j i t _ ?_ (Function.update_self ..) hlive (by simp) heq)
      exact (Function.update_of_ne hj ..).trans ht
  | _ => exact absurd trivial huntidy

end Settled

/-- From boot, the table describes what is executing after every initial part of the calls
exactly when no `spawn` among them takes the slot in control or a pid that is in use. -/
theorem always_coherent_iff (taskWrapper : Word) (boot : Machine) (hstack : boot.rsp.stack = 0)
    (hmem : boot.memory ≠ []) (calls : List Call) :
    Always (Scheduler.step taskWrapper) Coherent (.init boot) calls ↔
      Guarded (Scheduler.step taskWrapper) Tidy (.init boot) calls := by
  refine always_iff_guarded Settled ?_ ?_ ?_ (Settled.init hstack hmem) calls
  · exact fun s hs => hs.coherent
  · exact fun s call s' hs htidy hstep => hs.step htidy hstep
  · exact fun s call hs huntidy => hs.incoherent huntidy

theorem always_coherent_iff_boot : bootMachine.rsp.stack = 0 ∧ bootMachine.memory ≠ [] ∧
    (Always (Scheduler.step 0x1000) Coherent (.init bootMachine) [.spawn 0x2000, .yieldNow] ↔
      Guarded (Scheduler.step 0x1000) Tidy (.init bootMachine) [.spawn 0x2000, .yieldNow]) :=
  ⟨rfl, by decide, always_coherent_iff 0x1000 bootMachine rfl (by decide) _⟩

/-- A task in control is killed, and the next task takes its slot: the machine is on stack
1, which is freed, while the slot in control belongs to the task with stack 2. -/
theorem spawn_takes_executing_slot :
    (do let s ← run (Scheduler.step 0x1000) (.init bootMachine)
          [.spawn 0x2000, .yieldNow, .kill 1, .spawn 0x3000]
        return (s.current, s.machine.rsp.stack, s.machine.memory[1]?.map Option.isSome,
          (s.tasks s.current).map Occupied.runsOn)) =
      .ok (1, 1, some false, some 2) := by
  decide +kernel

end MerlionKernel.Task
