import Mathlib.Data.List.MinMax
import Mathlib.Data.Prod.Lex
import MerlionKernel.Rust.Map
import MerlionKernel.Theory.Run

/-!
# The fair policy

Under the fair policy of `scheduler.rs` every task has a virtual runtime. `pick_fair` chooses
the ready task with the smallest one, and `scheduler_tick` adds the weight of the running
task, its priority plus one, to it. As long as the same tasks are ready, the virtual runtimes
stay within 256 of each other: the task that is charged had the smallest one, and a weight
is at most 256.
-/

namespace MerlionKernel.Scheduler

open Rust Theory

/-- Scheduling algorithm. -/
inductive SchedulerPolicy
  | roundRobin
  | priority
  | realtime
  | fair
  deriving DecidableEq

/-- `TaskPriority::DEFAULT`. -/
def defaultPriority : UInt8 := 120

/-- The state of the scheduler. -/
structure SchedulerInner where
  policy : SchedulerPolicy
  priorities : BTreeMap Nat UInt8
  ticks : BTreeMap Nat Nat
  vruntime : BTreeMap Nat Nat
  rrCursor : Nat
  contextSwitches : Nat
  totalTicks : Nat
  idleTicks : Nat

/-- Select the policy; the fair one starts with no virtual runtimes. -/
def setPolicy (s : SchedulerInner) (policy : SchedulerPolicy) : SchedulerInner :=
  { s with policy, vruntime := if policy = .fair then .new else s.vruntime }

/-- The priority of a task. -/
def priorityOf (priorities : BTreeMap Nat UInt8) (pid : Nat) : UInt8 :=
  (priorities.get pid).getD defaultPriority

/-- The virtual runtime of a task, 0 if it has none. -/
def vrt (vruntime : BTreeMap Nat Nat) (pid : Nat) : Nat := (vruntime.get pid).getD 0

/-- The ready tasks without a virtual runtime get the smallest one. -/
def fillIn (ready : List Nat) (vruntime : BTreeMap Nat Nat) : BTreeMap Nat Nat :=
  let minVrt := (ready.filterMap vruntime.get).min?.getD 0
  ready.foldl (fun m pid => (m.orInsert pid minVrt).2) vruntime

/-- Choose the first of the ready tasks with the smallest virtual runtime and, among those,
the smallest priority value. -/
def pickFair (ready : List Nat) (vruntime : BTreeMap Nat Nat) (priorities : BTreeMap Nat UInt8) :
    Nat × BTreeMap Nat Nat :=
  let vruntime := fillIn ready vruntime
  let key (pid : Nat) := toLex (vrt vruntime pid, (priorityOf priorities pid).toNat)
  ((ready.argmin key).getD 0, vruntime)

/-- `*m.entry(pid).or_insert(0) += n`. -/
def addTo (m : BTreeMap Nat Nat) (pid n : Nat) : Exec (BTreeMap Nat Nat) := do
  let (count, m) := m.orInsert pid 0
  let count ← u64 (count + n)
  return m.insert pid count

/-- The ticks of the idle task, which is task 0. -/
def countIdle (s : SchedulerInner) (pid : Nat) : Exec Nat :=
  if pid = 0 then u64 (s.idleTicks + 1) else return s.idleTicks

/-- Under the fair policy the running task is charged its weight. -/
def charge (s : SchedulerInner) (pid : Nat) : Exec (BTreeMap Nat Nat) :=
  if s.policy = .fair then addTo s.vruntime pid ((priorityOf s.priorities pid).toNat + 1)
  else return s.vruntime

/-- The timer interrupt while task `pid` is running. -/
def schedulerTick (s : SchedulerInner) (pid : Nat) : Exec SchedulerInner := do
  let totalTicks ← u64 (s.totalTicks + 1)
  let ticks ← addTo s.ticks pid 1
  let idleTicks ← countIdle s pid
  let vruntime ← charge s pid
  return { s with totalTicks, ticks, idleTicks, vruntime }

/-- A ready task is chosen and runs until the next tick. -/
def round (ready : List Nat) (s : SchedulerInner) : Exec SchedulerInner :=
  let (pid, vruntime) := pickFair ready s.vruntime s.priorities
  schedulerTick { s with vruntime } pid

/-- A number of rounds with the same ready tasks. -/
def rounds (ready : List Nat) (n : Nat) (s : SchedulerInner) : Exec SchedulerInner :=
  run (fun s (_ : Unit) => round ready s) s (List.replicate n ())

/-- The virtual runtimes of any two ready tasks differ by at most 256. -/
def Spread (ready : List Nat) (vruntime : BTreeMap Nat Nat) : Prop :=
  ∀ p ∈ ready, ∀ q ∈ ready, vrt vruntime p ≤ vrt vruntime q + 256

/-! ### Choosing -/

/-- Filling in adds the value for the tasks of the list that have none. -/
theorem get_foldl_orInsert (ready : List Nat) (value : Nat) (m : BTreeMap Nat Nat) (pid : Nat) :
    (ready.foldl (fun m pid => (m.orInsert pid value).2) m).get pid =
      if m.get pid = none ∧ pid ∈ ready then some value else m.get pid := by
  induction ready generalizing m with
  | nil => simp
  | cons p ready ih =>
    rw [List.foldl_cons, ih]
    cases hp : m.get p with
    | some w =>
      -- The first task has a virtual runtime, so nothing changes.
      have hsame : (m.orInsert p value).2 = m := by rw [BTreeMap.orInsert, hp]
      rw [hsame]
      by_cases hpid : pid = p
      · simp [hpid, hp]
      · simp [hpid]
    | none =>
      have hnew : (m.orInsert p value).2 = m.insert p value := by rw [BTreeMap.orInsert, hp]
      rw [hnew]
      by_cases hpid : pid = p
      · simp [hpid, hp]
      · simp [hpid, BTreeMap.get_insert_of_ne hpid]

/-- Either no ready task has a virtual runtime yet, or all have one. -/
def Uniform (ready : List Nat) (vruntime : BTreeMap Nat Nat) : Prop :=
  (∀ p ∈ ready, vruntime.get p = none) ∨ ∀ p ∈ ready, vruntime.get p ≠ none

/-- Filling in gives every ready task an entry and changes no virtual runtime. -/
theorem fillIn_spec {ready : List Nat} {vruntime : BTreeMap Nat Nat} (h : Uniform ready vruntime) :
    (∀ p ∈ ready, (fillIn ready vruntime).get p ≠ none) ∧
      ∀ p, vrt (fillIn ready vruntime) p = vrt vruntime p := by
  rcases h with hnone | hsome
  · have hmin : ready.filterMap vruntime.get = [] := List.filterMap_eq_nil_iff.mpr hnone
    have hget : ∀ p, (fillIn ready vruntime).get p =
        if vruntime.get p = none ∧ p ∈ ready then some 0 else vruntime.get p := by
      intro p
      rw [fillIn, hmin]
      exact get_foldl_orInsert ready 0 vruntime p
    refine ⟨fun p hp => ?_, fun p => ?_⟩
    · rw [hget, if_pos ⟨hnone p hp, hp⟩]
      exact Option.some_ne_none 0
    · rw [vrt, vrt, hget]
      split_ifs with hp
      · rw [hp.1]
        rfl
      · rfl
  · have hget : ∀ p, (fillIn ready vruntime).get p = vruntime.get p := by
      intro p
      rw [fillIn, get_foldl_orInsert, if_neg fun hp => hsome p hp.2 hp.1]
    refine ⟨fun p hp => ?_, fun p => ?_⟩
    · rw [hget]
      exact hsome p hp
    · rw [vrt, vrt, hget]

/-- What is chosen is ready and has the smallest virtual runtime, and no virtual runtime
changes. -/
theorem pickFair_spec {ready : List Nat} {vruntime : BTreeMap Nat Nat} (h : Uniform ready vruntime)
    (priorities : BTreeMap Nat UInt8) :
    (∀ p ∈ ready, (pickFair ready vruntime priorities).2.get p ≠ none) ∧
      (∀ p, vrt (pickFair ready vruntime priorities).2 p = vrt vruntime p) ∧
      ∀ p ∈ ready, vrt vruntime (pickFair ready vruntime priorities).1 ≤ vrt vruntime p := by
  obtain ⟨hget, hvrt⟩ := fillIn_spec h
  refine ⟨hget, hvrt, fun p hp => ?_⟩
  simp only [pickFair]
  cases hmin : ready.argmin fun pid =>
      toLex (vrt (fillIn ready vruntime) pid, (priorityOf priorities pid).toNat) with
  | none =>
    rw [List.argmin_eq_none] at hmin
    simp [hmin] at hp
  | some best =>
    have hle := List.le_of_mem_argmin hp (Option.mem_def.mpr hmin)
    rw [Prod.Lex.toLex_le_toLex] at hle
    simp only [hvrt] at hle
    show vrt vruntime best ≤ vrt vruntime p
    omega

/-! ### Charging -/

/-- A count is stored under its task, unless it overflows. -/
theorem addTo_eq (m : BTreeMap Nat Nat) (pid n : Nat) :
    addTo m pid n = u64 (vrt m pid + n) >>= fun count => .ok (m.insert pid count) := by
  unfold addTo BTreeMap.orInsert vrt
  cases m.get pid with
  | some w => rfl
  | none =>
    -- The 0 that was put there is overwritten.
    have hover : ∀ v, (m.insert pid 0).insert pid v = m.insert pid v :=
      fun v => Function.update_idem ..
    simp only [hover]
    rfl

theorem vrt_insert (m : BTreeMap Nat Nat) (pid v p : Nat) :
    vrt (m.insert pid v) p = if p = pid then v else vrt m p := by
  unfold vrt
  by_cases hp : p = pid
  · simp [hp]
  · simp [hp, BTreeMap.get_insert_of_ne hp]

/-- What a tick changes under the fair policy. -/
theorem schedulerTick_spec {s s' : SchedulerInner} {pid : Nat} (hfair : s.policy = .fair)
    (h : schedulerTick s pid = .ok s') :
    s'.policy = .fair ∧ s'.priorities = s.priorities ∧
      s'.vruntime = s.vruntime.insert pid
        (vrt s.vruntime pid + ((priorityOf s.priorities pid).toNat + 1)) := by
  obtain ⟨totalTicks, -, h⟩ := bind_eq_ok_iff.mp h
  obtain ⟨ticks, -, h⟩ := bind_eq_ok_iff.mp h
  obtain ⟨idleTicks, -, h⟩ := bind_eq_ok_iff.mp h
  obtain ⟨vruntime, hcharge, h⟩ := bind_eq_ok_iff.mp h
  cases h
  rw [charge, if_pos hfair, addTo_eq, bind_eq_ok_iff] at hcharge
  obtain ⟨v, hv, hcharge⟩ := hcharge
  obtain ⟨-, rfl⟩ := u64_eq_ok_iff.mp hv
  exact ⟨hfair, rfl, (Except.ok.inj hcharge).symm⟩

/-- The counters of a state are at most these. -/
structure Within (s : SchedulerInner) (total ticks idle v : Nat) : Prop where
  total_le : s.totalTicks ≤ total
  ticks_le : ∀ pid, vrt s.ticks pid ≤ ticks
  idle_le : s.idleTicks ≤ idle
  vrt_le : ∀ pid, vrt s.vruntime pid ≤ v

theorem addTo_returns {m : BTreeMap Nat Nat} {pid n bound k : Nat} (h : ∀ p, vrt m p ≤ bound)
    (hn : n ≤ k) (hroom : bound + k < 2 ^ 64) :
    Returns (addTo m pid n) fun m' => ∀ p, vrt m' p ≤ bound + k := by
  have hpid := h pid
  rw [addTo_eq, u64_eq_ok (by omega), ok_bind]
  refine .ok fun p => ?_
  have hp := h p
  rw [vrt_insert]
  split_ifs
  · omega
  · omega

/-- A tick returns while the counters have room. -/
theorem schedulerTick_returns {s : SchedulerInner} {pid total ticks idle v : Nat}
    (hfair : s.policy = .fair) (h : Within s total ticks idle v) (htotal : total + 1 < 2 ^ 64)
    (hticks : ticks + 1 < 2 ^ 64) (hidle : idle + 1 < 2 ^ 64) (hv : v + 256 < 2 ^ 64) :
    Returns (schedulerTick s pid) fun s' =>
      Within s' (total + 1) (ticks + 1) (idle + 1) (v + 256) := by
  have hw : (priorityOf s.priorities pid).toNat < 256 := UInt8.toNat_lt _
  have htotal' := h.total_le
  have hidle' := h.idle_le
  have hcountIdle : Returns (countIdle s pid) fun n => n ≤ idle + 1 := by
    unfold countIdle
    split_ifs
    · rw [u64_eq_ok (by omega)]
      exact .ok (by omega)
    · exact .ok (by omega)
  unfold schedulerTick
  rw [u64_eq_ok (by omega), ok_bind]
  refine (addTo_returns h.ticks_le (Nat.le_refl 1) hticks).bind fun ticks' hticks' => ?_
  refine hcountIdle.bind fun idleTicks hidleTicks => ?_
  rw [charge, if_pos hfair]
  refine (addTo_returns h.vrt_le hw hv).bind fun vruntime hvruntime => ?_
  exact .ok ⟨Nat.succ_le_succ htotal', hticks', hidleTicks, hvruntime⟩

/-! ### Rounds -/

/-- The invariant of the rounds. -/
structure Even (ready : List Nat) (s : SchedulerInner) : Prop where
  fair : s.policy = .fair
  uniform : Uniform ready s.vruntime
  spread : Spread ready s.vruntime

theorem setPolicy_even (ready : List Nat) (s : SchedulerInner) : Even ready (setPolicy s .fair) :=
  ⟨rfl, .inl fun _ _ => rfl, fun _ _ _ _ => Nat.zero_le _⟩

/-- Charging the task with the smallest virtual runtime keeps the spread. -/
theorem Spread.charge {ready : List Nat} {vruntime : BTreeMap Nat Nat} (h : Spread ready vruntime)
    {pid w : Nat} (hmin : ∀ p ∈ ready, vrt vruntime pid ≤ vrt vruntime p) (hw : w ≤ 256) :
    Spread ready (vruntime.insert pid (vrt vruntime pid + w)) := by
  intro p hp q hq
  rw [vrt_insert, vrt_insert]
  have hpq := h p hp q hq
  have hq' := hmin q hq
  by_cases hpid : p = pid
  · -- The charged task against another one, or itself.
    rw [if_pos hpid]
    split_ifs <;> omega
  · rw [if_neg hpid]
    split_ifs with hqid
    · rw [hqid] at hpq
      omega
    · exact hpq

theorem Even.pick {ready : List Nat} {s : SchedulerInner} (h : Even ready s) :
    Spread ready (pickFair ready s.vruntime s.priorities).2 := by
  obtain ⟨-, hvrt, -⟩ := pickFair_spec h.uniform s.priorities
  intro p hp q hq
  rw [hvrt, hvrt]
  exact h.spread p hp q hq

theorem Even.round {ready : List Nat} {s s' : SchedulerInner} (h : Even ready s)
    (hround : round ready s = .ok s') : Even ready s' := by
  obtain ⟨hget, hvrt, hmin⟩ := pickFair_spec h.uniform s.priorities
  have hpick := h.pick
  simp only [Scheduler.round] at hround
  obtain ⟨hfair, -, hvruntime⟩ := schedulerTick_spec (s := { s with
    vruntime := (pickFair ready s.vruntime s.priorities).2 }) h.fair hround
  have hw : (priorityOf s.priorities (pickFair ready s.vruntime s.priorities).1).toNat < 256 :=
    UInt8.toNat_lt _
  refine ⟨hfair, .inr fun p hp => ?_, ?_⟩
  · rw [hvruntime]
    by_cases hpid : p = (pickFair ready s.vruntime s.priorities).1
    · rw [← hpid, BTreeMap.get_insert_self]
      exact Option.some_ne_none _
    · rw [BTreeMap.get_insert_of_ne hpid]
      exact hget p hp
  · rw [hvruntime]
    refine hpick.charge (fun p hp => ?_) hw
    rw [hvrt, hvrt]
    exact hmin p hp

theorem round_returns {ready : List Nat} {s : SchedulerInner} {total ticks idle v : Nat}
    (h : Even ready s) (hwithin : Within s total ticks idle v) (htotal : total + 1 < 2 ^ 64)
    (hticks : ticks + 1 < 2 ^ 64) (hidle : idle + 1 < 2 ^ 64) (hv : v + 256 < 2 ^ 64) :
    Returns (Scheduler.round ready s) fun s' =>
      Within s' (total + 1) (ticks + 1) (idle + 1) (v + 256) := by
  obtain ⟨-, hvrt, -⟩ := pickFair_spec h.uniform s.priorities
  refine schedulerTick_returns h.fair ⟨hwithin.total_le, hwithin.ticks_le, hwithin.idle_le, ?_⟩
    htotal hticks hidle hv
  intro pid
  exact (hvrt pid).trans_le (hwithin.vrt_le pid)

/-- What holds of the state `t` after `k` of `n` rounds that started in `s`: a task has at most
the ticks that leave room for `n` more of them, and the `k` of these rounds. -/
def Paced (ready : List Nat) (s : SchedulerInner) (n k : Nat) (t : SchedulerInner) : Prop :=
  Even ready t ∧ Within t (s.totalTicks + k) (2 ^ 64 - 1 - n + k) (s.idleTicks + k) (256 * k)

theorem Paced.round {ready : List Nat} {s t : SchedulerInner} {n k : Nat}
    (h : Paced ready s n k t) (hk : k < n) (htotal : s.totalTicks + n < 2 ^ 64)
    (hidle : s.idleTicks + n < 2 ^ 64) (hv : 256 * n < 2 ^ 64) :
    Returns (Scheduler.round ready t) (Paced ready s n (k + 1)) := by
  obtain ⟨heven, hwithin⟩ := h
  obtain ⟨t', hround, hwithin'⟩ := round_returns heven hwithin (by omega) (by omega)
    (by omega) (by omega)
  exact ⟨t', hround, heven.round hround, hwithin'⟩

/-- From `set_policy(Fair)` on, with the same tasks ready, the virtual runtimes of any two ready
tasks differ by at most 256, after every round and after the choice of the next one. The
rounds return as long as the counters do not overflow. -/
theorem spread_of_rounds (s : SchedulerInner) (ready : List Nat) (n : Nat) :
    (s.totalTicks + n < 2 ^ 64 → (∀ pid, vrt s.ticks pid + n < 2 ^ 64) →
      s.idleTicks + n < 2 ^ 64 → 256 * n < 2 ^ 64 →
      ∃ s', rounds ready n (setPolicy s .fair) = .ok s') ∧
    ∀ s', rounds ready n (setPolicy s .fair) = .ok s' →
      Spread ready s'.vruntime ∧ Spread ready (pickFair ready s'.vruntime s'.priorities).2 := by
  constructor
  · intro htotal hticks hidle hv
    have hstart : Paced ready s n 0 (setPolicy s .fair) :=
      ⟨setPolicy_even ready s, Nat.le_refl _, fun pid => Nat.le_sub_of_add_le
        (Nat.le_sub_one_of_lt (hticks pid)), Nat.le_refl _, fun _ => Nat.zero_le _⟩
    have hlen : 0 + (List.replicate n ()).length ≤ n := by simp
    obtain ⟨s', hs', -⟩ := run_returns_within (Paced ready s n)
      (fun k s' _ hk h => h.round hk htotal hidle hv) hstart hlen
    exact ⟨s', hs'⟩
  · intro s' hrun
    have heven : Even ready s' :=
      run_invariant (fun _ _ _ h hround => h.round hround) (setPolicy_even ready s) hrun
    exact ⟨heven.spread, heven.pick⟩

end MerlionKernel.Scheduler
