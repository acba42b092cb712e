import MerlionKernel.Rust.Find
import MerlionKernel.Task.Machine

/-!
# Switching between tasks

Any number of tasks, each with a stack of its own, and one of them in control. A task
leaves the processor by `context_switch` with its stack pointer saved in the task table,
and comes back when another task switches to it. Between two switches the task in control
may do anything to the registers and to its own stack.

`spawn` writes the first frame of a task by hand. It lists the registers in the order in
which `context_switch` pushes them, from the lowest address up, while a stack grows down:
the frame is upside down for the pops, and the entry function that is meant for `r12` is
popped into `r13`.
-/

namespace MerlionKernel.Task

open Rust Theory

/-- How a task that is not in control got where it is: it was spawned and never ran, or it
was switched out with these registers, stack pointer and return address. -/
inductive Origin
  | fresh (entry : Word)
  | left (regs : Regs) (rsp : Ptr) (rip : Word)

/-- A task: the stack pointer saved for it, its stack, and how it left the processor. -/
structure Suspended where
  rsp : Ptr
  stack : Nat
  origin : Origin

/-- The machine and the tasks that share it. -/
structure Switcher where
  machine : Machine
  tasks : List Suspended
  current : Nat

/-- What can happen to the tasks. -/
inductive Action
  | spawn (entry : Word)
  | work (w : Machine.Work)
  | switch (target : Nat)

namespace Switcher

/-- The boot code, on its own stack, is the only task. -/
def init (boot : Machine) : Switcher :=
  { machine := boot
    tasks := [{
      rsp := ⟨0, 0⟩, stack := boot.rsp.stack
      origin := .left boot.regs boot.rsp boot.rip }]
    current := 0 }

variable (taskWrapper : Word)

/-- A new task with a new stack. -/
def spawn (s : Switcher) (entry : Word) : Switcher :=
  let stack := s.machine.memory.length
  { s with
    machine := { s.machine with
      memory := s.machine.memory ++ [some (newStack taskWrapper entry)] }
    tasks := s.tasks ++
      [{ rsp := ⟨stack, stackWords - 7⟩, stack, origin := .fresh entry }] }

/-- The task in control switches to another one. -/
def switch (s : Switcher) (target : Nat) : Exec Switcher :=
  if target = s.current then return s
  else do
    let old ← index s.tasks s.current
    let new ← index s.tasks target
    let machine ← callContextSwitch s.machine new.rsp
    return {
      machine
      tasks := s.tasks.set s.current
        { old with
          rsp := machine.cell
          origin := .left s.machine.regs s.machine.rsp s.machine.rip }
      current := target }

def step (s : Switcher) : Action → Exec Switcher
  | .spawn entry => return s.spawn taskWrapper entry
  | .work w => do
    let machine ← s.machine.work w
    return { s with machine }
  | .switch target => s.switch target

end Switcher

/-- What a resumed task is to find: the registers and the stack pointer it left with, or,
when it never ran, `task_wrapper` about to be entered with the entry function in `r12`. -/
def Resumed (taskWrapper : Word) (m : Machine) : Origin → Prop
  | .fresh entry => m.rip = taskWrapper ∧ m.regs.r12 = entry
  | .left regs rsp _ => m.regs = regs ∧ m.rsp = rsp

/-! ### Frames of suspended tasks -/

/-- The seven words above the saved stack pointer, by the task's origin. -/
def Origin.frame (taskWrapper : Word) : Origin → List Word
  | .fresh entry => spawnFrame taskWrapper entry
  | .left regs _ rip => savedFrame regs rip

/-- The registers that the pops take from the frame. -/
def Origin.regs : Origin → Regs
  | .fresh entry => { rbx := 0, rbp := 0, r12 := 0, r13 := entry, r14 := 0, r15 := 0 }
  | .left regs _ _ => regs

/-- The address that `ret` takes from the frame. -/
def Origin.rip (taskWrapper : Word) : Origin → Word
  | .fresh _ => taskWrapper
  | .left _ _ rip => rip

/-- A frame of either kind, read in the order of the pops. -/
theorem Origin.frame_eq (taskWrapper : Word) (o : Origin) :
    o.frame taskWrapper = savedFrame o.regs (o.rip taskWrapper) := by
  cases o <;> rfl

/-- The frame of a suspended task is on its stack, where its saved stack pointer says. -/
structure Framed (taskWrapper : Word) (m : Machine) (t : Suspended) : Prop where
  stack : t.rsp.stack = t.stack
  frame : ∃ low high, m.memory[t.stack]? =
      some (some (low ++ (t.origin.frame taskWrapper ++ high))) ∧
    t.rsp.word = low.length ∧
    ∀ regs rsp rip, t.origin = .left regs rsp rip → rsp = ⟨t.stack, low.length + 7⟩

theorem Framed.of_memory {taskWrapper : Word} {m m' : Machine} {t : Suspended}
    (h : Framed taskWrapper m t) (hmem : m'.memory[t.stack]? = m.memory[t.stack]?) :
    Framed taskWrapper m' t := by
  obtain ⟨low, high, hframe, hrest⟩ := h.frame
  exact ⟨h.stack, low, high, hmem.trans hframe, hrest⟩

/-- Every task has its own stack, the one in control runs on its stack, and all others
have their frames. -/
structure Layout (taskWrapper : Word) (s : Switcher) : Prop where
  allocated : ∀ t ∈ s.tasks, t.stack < s.machine.memory.length
  own : (s.tasks.map Suspended.stack).Nodup
  control : ∃ t, s.tasks[s.current]? = some t ∧ t.stack = s.machine.rsp.stack
  room : ∃ low high, At s.machine low high
  framed : ∀ i t, s.tasks[i]? = some t → i ≠ s.current → Framed taskWrapper s.machine t

namespace Layout

variable {taskWrapper : Word} {s : Switcher}

theorem stack_ne (h : Layout taskWrapper s) {i j : Nat} {t u : Suspended}
    (hi : s.tasks[i]? = some t) (hj : s.tasks[j]? = some u) (hne : i ≠ j) :
    t.stack ≠ u.stack := by
  intro heq
  have hlt : i < (s.tasks.map Suspended.stack).length := by
    rw [List.length_map]
    exact (List.getElem?_eq_some_iff.mp hi).1
  refine hne ((List.getElem?_inj hlt h.own).mp ?_)
  simp [hi, hj, heq]

theorem stack_ne_control (h : Layout taskWrapper s) {i : Nat} {t : Suspended}
    (hi : s.tasks[i]? = some t) (hne : i ≠ s.current) : t.stack ≠ s.machine.rsp.stack := by
  obtain ⟨u, hu, hstack⟩ := h.control
  rw [← hstack]
  exact h.stack_ne hi hu hne

theorem init {boot : Machine} (hboot : ∃ low high, At boot low high) :
    Layout taskWrapper (Switcher.init boot) := by
  obtain ⟨low, high, hat⟩ := hboot
  obtain ⟨hlt, -⟩ := List.getElem?_eq_some_iff.mp hat.stack
  refine ⟨?_, ?_, ⟨_, rfl, rfl⟩, ⟨low, high, hat⟩, ?_⟩
  · simpa [Switcher.init] using hlt
  · simp [Switcher.init]
  · intro i t ht hne
    obtain ⟨hi, -⟩ := List.getElem?_eq_some_iff.mp ht
    simp only [Switcher.init, List.length_singleton] at hi hne
    omega

theorem spawn (h : Layout taskWrapper s) (entry : Word) :
    Layout taskWrapper (s.spawn taskWrapper entry) := by
  obtain ⟨t₀, ht₀, hstack₀⟩ := h.control
  have hcurrent := (List.getElem?_eq_some_iff.mp ht₀).1
  have hkept : ∀ {i}, i < s.machine.memory.length →
      (s.spawn taskWrapper entry).machine.memory[i]? = s.machine.memory[i]? := fun hi =>
    List.getElem?_append_left hi
  refine ⟨?_, ?_, ⟨t₀, ?_, hstack₀⟩, ?_, ?_⟩
  · intro t ht
    rcases List.mem_append.mp ht with hold | hnew
    · have := h.allocated t hold
      simp only [Switcher.spawn, List.length_append]
      omega
    · obtain rfl := List.mem_singleton.mp hnew
      simp [Switcher.spawn]
  · exact nodup_map_concat h.own fun t ht => Nat.ne_of_lt (h.allocated t ht)
  · exact (List.getElem?_append_left hcurrent).trans ht₀
  · obtain ⟨low, high, hat⟩ := h.room
    refine ⟨low, high, ?_, hat.word⟩
    exact (hkept (List.getElem?_eq_some_iff.mp hat.stack).1).trans hat.stack
  · intro i t ht hne
    rcases Nat.lt_or_ge i s.tasks.length with hi | hi
    · have hold : s.tasks[i]? = some t := (List.getElem?_append_left hi).symm.trans ht
      refine (h.framed i t hold hne).of_memory (hkept ?_)
      exact h.allocated t (List.mem_of_getElem? hold)
    · -- The new task: its frame is the top of the new stack.
      have hnew : t ∈ [Suspended.mk ⟨s.machine.memory.length, stackWords - 7⟩
          s.machine.memory.length (.fresh entry)] := by
        rw [Switcher.spawn, List.getElem?_append_right hi] at ht
        exact List.mem_of_getElem? ht
      obtain rfl := List.mem_singleton.mp hnew
      refine ⟨rfl, newStackLow, [], ?_, length_newStackLow.symm, by simp⟩
      simp [Switcher.spawn, newStack, Origin.frame]

theorem work (h : Layout taskWrapper s) {w : Machine.Work} {m : Machine}
    (hwork : s.machine.work w = .ok m) : Layout taskWrapper { s with machine := m } := by
  have hstays := stays_of_work hwork
  obtain ⟨low, high, hat⟩ := h.room
  obtain ⟨hlt, -⟩ := List.getElem?_eq_some_iff.mp hat.stack
  rw [Machine.work, hat.words, ok_bind] at hwork
  split at hwork
  · rename_i hfits
    cases hwork
    refine ⟨?_, h.own, h.control, ?_, ?_⟩
    · intro t ht
      rw [hstays.length]
      exact h.allocated t ht
    · refine ⟨w.words.take w.word, w.words.drop w.word, ?_, ?_⟩
      · simp [List.take_append_drop, hlt]
      · simp only [List.length_take]
        omega
    · intro i t ht hne
      refine (h.framed i t ht hne).of_memory ?_
      exact List.getElem?_set_ne (h.stack_ne_control ht hne).symm
  · cases hwork

/-- A switch to a suspended task returns when seven words fit on the stack in control. The
frame of the task in control is then on its stack, and that of the other task taken. -/
theorem callContextSwitch_eq (h : Layout taskWrapper s) (hroom : 7 ≤ s.machine.rsp.word)
    {target : Nat} {t : Suspended} (ht : s.tasks[target]? = some t) (hne : target ≠ s.current) :
    ∃ low high low' high',
      s.machine.rsp.word = low.length + 7 ∧
      s.machine.memory[t.stack]? =
        some (some (low' ++ (t.origin.frame taskWrapper ++ high'))) ∧
      (∀ regs rsp rip, t.origin = .left regs rsp rip → rsp = ⟨t.stack, low'.length + 7⟩) ∧
      callContextSwitch s.machine t.rsp = .ok
        { regs := t.origin.regs
          rip := t.origin.rip taskWrapper
          rsp := ⟨t.stack, low'.length + 7⟩
          rsi := t.rsp
          cell := ⟨s.machine.rsp.stack, low.length⟩
          memory := s.machine.memory.set s.machine.rsp.stack
            (some (low ++ (savedFrame s.machine.regs s.machine.rip ++ high))) } := by
  obtain ⟨all, high, hat⟩ := h.room
  obtain ⟨hstack, low', high', hframe, hword, hleft⟩ := h.framed target t ht hne
  have hlen : all.length - 7 ≤ all.length := Nat.sub_le ..
  have hseven : 7 ≤ all.length := hat.word ▸ hroom
  have hlow : (all.take (all.length - 7)).length = all.length - 7 :=
    List.length_take_of_le hlen
  -- The seven words below the stack pointer are where the frame is pushed.
  rw [← List.take_append_drop (all.length - 7) all] at hat
  refine ⟨all.take (all.length - 7), high, low', high', ?_, hframe, hleft, ?_⟩
  · rw [hat.word, List.take_append_drop, hlow, Nat.sub_add_cancel hseven]
  · have hother := h.stack_ne_control ht hne
    rw [← hstack] at hother hframe ⊢
    rw [Origin.frame_eq] at hframe
    refine Task.callContextSwitch_eq hat ?_ hother hframe hword
    rw [List.length_drop, Nat.sub_sub_self hseven]

/-- A switch keeps the layout. -/
theorem switch (h : Layout taskWrapper s) {target : Nat} {s' : Switcher}
    (hswitch : s.switch target = .ok s') : Layout taskWrapper s' := by
  unfold Switcher.switch at hswitch
  split at hswitch
  · cases hswitch
    exact h
  · rename_i hne
    simp only [bind_eq_ok_iff, index_eq_ok_iff] at hswitch
    obtain ⟨old, hold, t, ht, m, hm, hs'⟩ := hswitch
    cases hs'
    obtain ⟨low, high, low', high', hword, hframe, -, hcall⟩ :=
      h.callContextSwitch_eq (word_of_callContextSwitch hm) ht hne
    obtain rfl : m = _ := Except.ok.inj (hm.symm.trans hcall)
    obtain ⟨hcurrent, -⟩ := List.getElem?_eq_some_iff.mp hold
    have hcontrol : old.stack = s.machine.rsp.stack := by
      obtain ⟨u, hu, hstack⟩ := h.control
      rw [Option.some.inj (hold.symm.trans hu), hstack]
    have hallocated : s.machine.rsp.stack < s.machine.memory.length := by
      rw [← hcontrol]
      exact h.allocated old (List.mem_of_getElem? hold)
    have hkept : ∀ {u : Suspended}, u.stack ≠ s.machine.rsp.stack → ∀ words,
        (s.machine.memory.set s.machine.rsp.stack words)[u.stack]? =
          s.machine.memory[u.stack]? := fun hu words => List.getElem?_set_ne hu.symm
    refine ⟨?_, ?_, ⟨t, ?_, rfl⟩, ?_, ?_⟩
    · intro u hu
      rw [List.length_set]
      rcases List.mem_or_eq_of_mem_set hu with hmem | rfl
      · exact h.allocated u hmem
      · exact h.allocated old (List.mem_of_getElem? hold)
    · -- Saving the stack pointer does not change whose stack it is.
      have hmap : (s.tasks.set s.current
          { old with
            rsp := ⟨s.machine.rsp.stack, low.length⟩
            origin := .left s.machine.regs s.machine.rsp s.machine.rip }).map Suspended.stack =
          s.tasks.map Suspended.stack := map_set_of_same hold rfl
      rw [hmap]
      exact h.own
    · rwa [List.getElem?_set_ne (Ne.symm hne)]
    · -- The frame of the task in control is popped: it lies below the stack pointer now.
      refine ⟨low' ++ t.origin.frame taskWrapper, high', ?_, ?_⟩
      · rw [hkept (h.stack_ne_control ht hne), hframe, List.append_assoc]
      · rw [Origin.frame_eq, List.length_append]
        rfl
    · intro i u hu hi
      by_cases hcur : i = s.current
      · -- The task that gave up control: its frame is the one just pushed.
        subst hcur
        rw [List.getElem?_set_self hcurrent] at hu
        cases hu
        refine ⟨hcontrol.symm, low, high, ?_, rfl, ?_⟩
        · simp only [hcontrol]
          exact List.getElem?_set_self hallocated
        · rintro regs rsp rip heq
          cases heq
          rw [hcontrol, ← hword]
      · rw [List.getElem?_set_ne (Ne.symm hcur)] at hu
        exact (h.framed i u hu hcur).of_memory (hkept (h.stack_ne_control hu hcur) _)

theorem step (h : Layout taskWrapper s) {action : Action} {s' : Switcher}
    (hstep : s.step taskWrapper action = .ok s') : Layout taskWrapper s' := by
  cases action with
  | spawn entry =>
    cases hstep
    exact h.spawn entry
  | work w =>
    obtain ⟨m, hm, hs'⟩ := bind_eq_ok_iff.mp hstep
    cases hs'
    exact h.work hm
  | switch target => exact h.switch hstep

end Layout

/-! ### Resuming -/

/-- What the pops take is what the task is to find, except for a new task: its entry
function is in `r13`, and `r12` is zero. -/
theorem resumed_iff {taskWrapper : Word} {m : Machine} {o : Origin} (hregs : m.regs = o.regs)
    (hrip : m.rip = o.rip taskWrapper)
    (hrsp : ∀ regs rsp rip, o = .left regs rsp rip → rsp = m.rsp) :
    Resumed taskWrapper m o ↔ ∀ entry, o = .fresh entry → entry = 0 := by
  cases o with
  | fresh entry =>
    have hr12 : m.regs.r12 = 0 := by rw [hregs]; rfl
    constructor
    · rintro ⟨-, hentry⟩ e ⟨⟩
      rw [← hentry, hr12]
    · intro hzero
      exact ⟨hrip, by rw [hr12, hzero entry rfl]⟩
  | left regs rsp rip =>
    constructor
    · rintro - entry ⟨⟩
    · intro _
      exact ⟨hregs, (hrsp regs rsp rip rfl).symm⟩

/-- After any sequence of spawns, work and switches, a switch to a suspended task returns
exactly when its frame fits on the stack in control. The task finds what it is to find unless
it has never run and its entry function is not the null pointer: then `task_wrapper` is
entered with the entry function in `r13` and zero in `r12`. -/
theorem switch_resumed_iff (taskWrapper : Word) (boot : Machine)
    (hboot : ∃ low high, At boot low high) (actions : List Action) (s : Switcher)
    (hrun : run (Switcher.step taskWrapper) (Switcher.init boot) actions = .ok s)
    (target : Nat) (t : Suspended) (ht : s.tasks[target]? = some t) (hne : target ≠ s.current) :
    ((∃ s', s.step taskWrapper (.switch target) = .ok s') ↔ 7 ≤ s.machine.rsp.word) ∧
    ∀ s', s.step taskWrapper (.switch target) = .ok s' → s'.current = target ∧
      (Resumed taskWrapper s'.machine t.origin ↔ ∀ entry, t.origin = .fresh entry → entry = 0) ∧
      (∀ entry, t.origin = .fresh entry →
        s'.machine.rip = taskWrapper ∧ s'.machine.regs.r13 = entry ∧ s'.machine.regs.r12 = 0) := by
  have hlayout : Layout taskWrapper s :=
    run_invariant (fun _ _ _ hs hstep => hs.step hstep) (Layout.init hboot) hrun
  obtain ⟨old, hold, -⟩ := hlayout.control
  have hswitch : s.step taskWrapper (.switch target) =
      callContextSwitch s.machine t.rsp >>= fun machine => .ok {
        machine
        tasks := s.tasks.set s.current
          { old with
            rsp := machine.cell
            origin := .left s.machine.regs s.machine.rsp s.machine.rip }
        current := target } := by
    rw [Switcher.step, Switcher.switch, if_neg hne, index_eq_ok_iff.mpr hold, ok_bind,
      index_eq_ok_iff.mpr ht, ok_bind]
    rfl
  rw [hswitch]
  refine ⟨⟨?_, fun hroom => ?_⟩, ?_⟩
  · rintro ⟨s', hs'⟩
    obtain ⟨m, hm, -⟩ := bind_eq_ok_iff.mp hs'
    exact word_of_callContextSwitch hm
  · obtain ⟨low, high, low', high', -, -, -, hcall⟩ := hlayout.callContextSwitch_eq hroom ht hne
    rw [hcall]
    exact ⟨_, rfl⟩
  · intro s' hs'
    obtain ⟨m, hm, heq⟩ := bind_eq_ok_iff.mp hs'
    obtain ⟨low, high, low', high', -, -, hleft, hcall⟩ :=
      hlayout.callContextSwitch_eq (word_of_callContextSwitch hm) ht hne
    obtain rfl := Except.ok.inj heq
    obtain rfl : m = _ := Except.ok.inj (hm.symm.trans hcall)
    refine ⟨rfl, resumed_iff rfl rfl hleft, ?_⟩
    intro entry ho
    rw [ho]
    exact ⟨rfl, rfl, rfl⟩

theorem switch_resumed_iff_spawned :
    ∃ s', (Switcher.spawn 0x1000 (.init bootMachine) 0x2000).step 0x1000 (.switch 1) = .ok s' ∧
      s'.current = 1 ∧ s'.machine.rip = 0x1000 ∧ s'.machine.regs.r13 = 0x2000 ∧
      s'.machine.regs.r12 = 0 := by
  obtain ⟨hreturns, hresumed⟩ := switch_resumed_iff 0x1000 bootMachine ⟨_, _, bootMachine_at⟩
    [.spawn 0x2000] (Switcher.spawn 0x1000 (.init bootMachine) 0x2000) rfl 1
    ⟨⟨1, stackWords - 7⟩, 1, .fresh 0x2000⟩ rfl (by decide)
  obtain ⟨s', hs'⟩ := hreturns.mpr (by decide)
  obtain ⟨hcurrent, -, hfresh⟩ := hresumed s' hs'
  exact ⟨s', hs', hcurrent, hfresh 0x2000 rfl⟩

/-- A task spawned with entry function `0x2000` enters `task_wrapper` with a null pointer
where it reads its entry function. -/
theorem fresh_task_finds_null_entry :
    (do let s ← run (Switcher.step 0x1000) (.init bootMachine) [.spawn 0x2000, .switch 1]
        return (s.machine.rip, s.machine.regs.r12, s.machine.regs.r13)) =
      .ok (0x1000, 0, 0x2000) := by
  decide +kernel

end MerlionKernel.Task
