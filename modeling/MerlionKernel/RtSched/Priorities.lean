import MerlionKernel.RtSched.Model
import MerlionKernel.Theory.Run

/-!
# Running tasks and inherited priorities

At most one task should be running, and a boost should never lower a priority. Two calls break
this. `schedule_next` marks a task as running without looking whether another one is. And
`priority_boost` takes a holder that does not exist for one of priority 0, so a boost may wait
for a number that is given out later, to a task with a higher priority than the boost has.
All other calls keep both, and `priority_restore` always gives a task its own priority back.
-/

namespace MerlionKernel.RtSched

open Rust Theory

/-- The calls to the scheduler. -/
inductive Call
  | create (name : String) (policy : RtPolicy) (priority period deadline wcet : Nat)
  | remove (id : Nat)
  | boost (holderId blockerId resourceId : Nat)
  | restore (holderId : Nat)
  | scheduleNext
  | checkDeadlines
  | tick

/-- Perform a call. -/
def step (s : RtSchedInner) : Call → Exec RtSchedInner
  | .create name policy priority period deadline wcet => do
    let (_, s) ← createRtTask s name policy priority period deadline wcet
    return s
  | .remove id => return (removeRtTask s id).2
  | .boost holderId blockerId resourceId => return priorityBoost s holderId blockerId resourceId
  | .restore holderId => return priorityRestore s holderId
  | .scheduleNext => do
    let (_, s) ← RtSched.scheduleNext s
    return s
  | .checkDeadlines => RtSched.checkDeadlines s
  | .tick => RtSched.tick s

/-- The number of running tasks. -/
def running (tasks : List RtTask) : Nat := tasks.countP fun t => t.state = .running

/-- At most one task is running, no effective priority is below the task's own, and
`priority_restore` makes them equal. -/
def Safe (s : RtSchedInner) : Prop :=
  running s.tasks ≤ 1 ∧ (∀ task ∈ s.tasks, task.priority ≤ s.effectivePriority task) ∧
    ∀ h, ∀ task ∈ (priorityRestore s h).tasks, task.id = h →
      (priorityRestore s h).effectivePriority task = task.priority

/-- The boosts of task `id` are none, or one of them has at least the priority `base`. -/
def Covers (entries : List PriorityInheritance) (id base : Nat) : Prop :=
  (∀ pi ∈ entries, pi.holderId ≠ id) ∨
    ∃ pi ∈ entries, pi.holderId = id ∧ base ≤ pi.boostedPriority

/-- A task is picked only while none is running, and created only when the boosts that wait
for its number do not lower its priority. -/
def Careful (s : RtSchedInner) : Call → Prop
  | .create name policy priority period deadline wcet =>
    ∀ id s', createRtTask s name policy priority period deadline wcet = .ok (some id, s') →
      Covers s.piEntries id (min priority 99)
  | .scheduleNext =>
    ∀ id s', RtSched.scheduleNext s = .ok (some id, s') → ∀ task ∈ s.tasks, task.state ≠ .running
  | _ => True

/-! ### Boosts -/

/-- A priority is not lowered exactly when the boosts cover it. -/
theorem le_effectivePriority_iff (s : RtSchedInner) (task : RtTask) :
    task.priority ≤ s.effectivePriority task ↔ Covers s.piEntries task.id task.priority := by
  unfold RtSchedInner.effectivePriority
  cases hmax : ((s.piEntries.filter fun pi => pi.holderId = task.id).map
      PriorityInheritance.boostedPriority).max? with
  | none =>
    have hnone : ∀ pi ∈ s.piEntries, pi.holderId ≠ task.id := by
      simpa [List.filter_eq_nil_iff] using List.max?_eq_none_iff.mp hmax
    exact ⟨fun _ => .inl hnone, fun _ => Nat.le_refl _⟩
  | some m =>
    obtain ⟨hmem, hle⟩ := List.max?_eq_some_iff.mp hmax
    obtain ⟨pi, hpi, rfl⟩ := List.mem_map.mp hmem
    obtain ⟨hpi, hholder⟩ := List.mem_filter.mp hpi
    constructor
    · intro hcover
      exact .inr ⟨pi, hpi, by simpa using hholder, hcover⟩
    · rintro (hnone | ⟨pi', hpi', hholder', hcover⟩)
      · exact absurd (by simpa using hholder) (hnone pi hpi)
      · refine Nat.le_trans hcover (hle _ (List.mem_map_of_mem ?_))
        exact List.mem_filter.mpr ⟨hpi', by simpa using hholder'⟩

/-- Without a boost the effective priority is the task's own. -/
theorem effectivePriority_of_none {s : RtSchedInner} {task : RtTask}
    (h : ∀ pi ∈ s.piEntries, pi.holderId ≠ task.id) : s.effectivePriority task = task.priority := by
  have hnil : s.piEntries.filter (fun pi => pi.holderId = task.id) = [] := by
    simpa [List.filter_eq_nil_iff] using h
  rw [RtSchedInner.effectivePriority, hnil]
  rfl

/-- After `priority_restore` a task has its own priority. -/
theorem effectivePriority_restore (s : RtSchedInner) (task : RtTask) :
    (priorityRestore s task.id).effectivePriority task = task.priority := by
  apply effectivePriority_of_none
  intro pi hpi
  simpa using (List.mem_filter.mp hpi).2

/-- Removing the boosts of one task leaves the others covered, and its own too. -/
theorem Covers.filter {entries : List PriorityInheritance} {id base : Nat}
    (h : Covers entries id base) (holder : Nat) :
    Covers (entries.filter fun pi => pi.holderId ≠ holder) id base := by
  by_cases hid : id = holder
  · refine .inl fun pi hpi => ?_
    rw [hid]
    simpa using (List.mem_filter.mp hpi).2
  · rcases h with hnone | ⟨pi, hpi, hholder, hle⟩
    · exact .inl fun pi hpi => hnone pi (List.mem_filter.mp hpi).1
    · refine .inr ⟨pi, List.mem_filter.mpr ⟨hpi, ?_⟩, hholder, hle⟩
      simpa [hholder] using hid

/-- A boost covers its holder, and leaves the others as they were. -/
theorem Covers.concat {entries : List PriorityInheritance} {id base : Nat}
    (h : Covers entries id base) {pi : PriorityInheritance}
    (hpi : pi.holderId = id → base ≤ pi.boostedPriority) : Covers (entries ++ [pi]) id base := by
  by_cases hid : pi.holderId = id
  · exact .inr ⟨pi, by simp, hid, hpi hid⟩
  · rcases h with hnone | ⟨pi', hpi', hrest⟩
    · refine .inl fun pi' hpi' => ?_
      rcases List.mem_append.mp hpi' with hpi' | hpi'
      · exact hnone pi' hpi'
      · rwa [List.mem_singleton.mp hpi']
    · exact .inr ⟨pi', List.mem_append_left _ hpi', hrest⟩

/-! ### Time -/

/-- What time does to a task: it may stop running, and keeps its number and priority. -/
structure Ages (task task' : RtTask) : Prop where
  id_eq : task'.id = task.id
  priority_eq : task'.priority = task.priority
  running_of : task'.state = .running → task.state = .running

theorem Ages.refl (task : RtTask) : Ages task task := ⟨rfl, rfl, id⟩

theorem checkDeadline_ages {now : Nat} {task task' : RtTask}
    (h : checkDeadline now task = .ok task') : Ages task task' := by
  unfold checkDeadline at h
  split_ifs at h
  · obtain ⟨missCount, -, h⟩ := bind_eq_ok_iff.mp h
    obtain ⟨deadline, -, h⟩ := bind_eq_ok_iff.mp h
    cases h
    exact ⟨rfl, rfl, id⟩
  · cases h
    exact .refl task

theorem resetPeriodic_ages {now : Nat} {task task' : RtTask}
    (h : resetPeriodic now task = .ok task') : Ages task task' := by
  unfold resetPeriodic at h
  split_ifs at h
  · obtain ⟨next, -, h⟩ := bind_eq_ok_iff.mp h
    split_ifs at h
    · obtain ⟨deadline, -, h⟩ := bind_eq_ok_iff.mp h
      cases h
      exact ⟨rfl, rfl, nofun⟩
    · cases h
      exact .refl task
  · cases h
    exact .refl task

/-- The invariant of the careful runs. -/
structure Sound (s : RtSchedInner) : Prop where
  issued : Issued RtTask.id s.nextId s.tasks
  running_le : running s.tasks ≤ 1
  covered : ∀ task ∈ s.tasks, Covers s.piEntries task.id task.priority

theorem sound_new : Sound .new where
  issued := Issued.nil 1
  running_le := Nat.zero_le 1
  covered := by intro task htask; cases htask

theorem Sound.safe {s : RtSchedInner} (h : Sound s) : Safe s := by
  refine ⟨h.running_le, fun task htask => ?_, ?_⟩
  · exact (le_effectivePriority_iff s task).mpr (h.covered task htask)
  · rintro _ task - rfl
    exact effectivePriority_restore s task

theorem running_le_of_ages {tasks tasks' : List RtTask} (h : List.Forall₂ Ages tasks tasks') :
    running tasks' ≤ running tasks := by
  unfold running
  induction h with
  | nil => exact Nat.le_refl _
  | @cons task task' _ _ hages _ ih =>
    rw [List.countP_cons, List.countP_cons]
    by_cases hrun : task'.state = .running
    · simp only [hrun, hages.running_of hrun, decide_true, if_true]
      omega
    · simp only [hrun, decide_false, Bool.false_eq_true, if_false]
      omega

theorem map_id_of_ages {tasks tasks' : List RtTask} (h : List.Forall₂ Ages tasks tasks') :
    tasks'.map RtTask.id = tasks.map RtTask.id := by
  induction h with
  | nil => rfl
  | cons hages _ ih => rw [List.map_cons, List.map_cons, hages.id_eq, ih]

/-- Time keeps the invariant. -/
theorem Sound.aged {s : RtSchedInner} (h : Sound s) {tasks : List RtTask}
    (hages : List.Forall₂ Ages s.tasks tasks) (currentTick : Nat) :
    Sound { s with tasks, currentTick } := by
  have hids := map_id_of_ages hages
  have hmem : ∀ task' ∈ tasks, ∃ task ∈ s.tasks, Ages task task' := by
    intro task' htask'
    obtain ⟨i, hi, rfl⟩ := List.mem_iff_getElem.mp htask'
    have hi' : i < s.tasks.length := hages.length_eq ▸ hi
    exact ⟨s.tasks[i], List.getElem_mem hi', hages.get hi' hi⟩
  refine ⟨⟨?_, fun task' htask' => ?_⟩, Nat.le_trans (running_le_of_ages hages) h.running_le,
    fun task' htask' => ?_⟩
  · rw [hids]
    exact h.issued.nodup
  · obtain ⟨task, htask, hage⟩ := hmem task' htask'
    rw [hage.id_eq]
    exact h.issued.key_lt task htask
  · obtain ⟨task, htask, hage⟩ := hmem task' htask'
    rw [hage.id_eq, hage.priority_eq]
    exact h.covered task htask

theorem Sound.checkDeadlines {s s' : RtSchedInner} (h : Sound s)
    (hstep : RtSched.checkDeadlines s = .ok s') : Sound s' := by
  obtain ⟨tasks, htasks, hstep⟩ := bind_eq_ok_iff.mp hstep
  cases hstep
  exact h.aged ((forall₂_of_each htasks).imp fun _ _ => checkDeadline_ages) s.currentTick

theorem Sound.tick {s s' : RtSchedInner} (h : Sound s) (hstep : RtSched.tick s = .ok s') :
    Sound s' := by
  obtain ⟨now, -, hstep⟩ := bind_eq_ok_iff.mp hstep
  obtain ⟨tasks, htasks, hstep⟩ := bind_eq_ok_iff.mp hstep
  obtain ⟨tasks', htasks', hstep⟩ := bind_eq_ok_iff.mp hstep
  cases hstep
  have hreset := h.aged ((forall₂_of_each htasks).imp fun _ _ => resetPeriodic_ages) now
  exact hreset.aged ((forall₂_of_each htasks').imp fun _ _ => checkDeadline_ages) now

/-! ### Tasks come and go -/

/-- What `create_rt_task` does: nothing, or it adds a ready task. -/
theorem of_createRtTask {s s' : RtSchedInner} {name : String} {policy : RtPolicy}
    {priority period deadline wcet : Nat} {r : Option Nat}
    (h : createRtTask s name policy priority period deadline wcet = .ok (r, s')) :
    (r = none ∧ s' = s) ∨
      (r = some s.nextId ∧ ∃ task : RtTask, task.id = s.nextId ∧ task.priority = min priority 99 ∧
        task.state = .ready ∧
        s' = { s with tasks := s.tasks ++ [task], nextId := s.nextId + 1 }) := by
  unfold createRtTask at h
  split_ifs at h
  · cases h
    exact .inl ⟨rfl, rfl⟩
  · obtain ⟨next, hnext, h⟩ := bind_eq_ok_iff.mp h
    obtain ⟨-, rfl⟩ := u32_eq_ok_iff.mp hnext
    obtain ⟨deadlineTicks, -, h⟩ := bind_eq_ok_iff.mp h
    cases h
    exact .inr ⟨rfl, _, rfl, rfl, rfl, rfl⟩

theorem Sound.concat {s : RtSchedInner} (h : Sound s) {task : RtTask} (hid : task.id = s.nextId)
    (hstate : task.state = .ready) (hcover : Covers s.piEntries task.id task.priority) :
    Sound { s with tasks := s.tasks ++ [task], nextId := s.nextId + 1 } := by
  refine ⟨h.issued.concat hid, ?_, fun t ht => ?_⟩
  · show running (s.tasks ++ [task]) ≤ 1
    simpa [running, hstate] using h.running_le
  · rcases List.mem_append.mp ht with ht | ht
    · exact h.covered t ht
    · rwa [List.mem_singleton.mp ht]

theorem Sound.remove {s : RtSchedInner} (h : Sound s) (id : Nat) : Sound (removeRtTask s id).2 := by
  refine ⟨h.issued.discard, ?_, fun task htask => ?_⟩
  · exact Nat.le_trans (List.Sublist.countP_le List.eraseP_sublist) h.running_le
  · exact (h.covered task (h.issued.mem_discard.mp htask).1).filter id

theorem Sound.boost {s : RtSchedInner} (h : Sound s) (holderId blockerId resourceId : Nat) :
    Sound (priorityBoost s holderId blockerId resourceId) := by
  unfold priorityBoost
  split_ifs with hfull
  · exact h
  · dsimp only
    split_ifs with hhigher
    · refine ⟨h.issued, h.running_le, fun task htask => (h.covered task htask).concat ?_⟩
      -- The boost is above the priority of the holder that `find` finds.
      rintro rfl
      have hfind : s.find task.id = some task := h.issued.lookup_eq_some_iff.mpr ⟨htask, rfl⟩
      rw [hfind] at hhigher
      exact Nat.le_of_lt hhigher
    · exact h

theorem Sound.restore {s : RtSchedInner} (h : Sound s) (holderId : Nat) :
    Sound (priorityRestore s holderId) :=
  ⟨h.issued, h.running_le, fun task htask => (h.covered task htask).filter holderId⟩

/-! ### Picking a task -/

/-- What `schedule_next` does: nothing, or it makes one ready task run. -/
theorem of_scheduleNext {s s' : RtSchedInner} {r : Option Nat}
    (h : scheduleNext s = .ok (r, s')) :
    (r = none ∧ s' = s) ∨
      ∃ front task back task', s.tasks = front ++ task :: back ∧ task.state = .ready ∧
        r = some task.id ∧ task'.id = task.id ∧ task'.priority = task.priority ∧
        task'.state = .running ∧ s'.tasks = front ++ task' :: back ∧
        s'.piEntries = s.piEntries ∧ s'.nextId = s.nextId := by
  unfold scheduleNext at h
  split_ifs at h with hready
  · cases h
    exact .inl ⟨rfl, rfl⟩
  · obtain ⟨best, hpick, h⟩ := bind_eq_ok_iff.mp h
    obtain ⟨idx, hidx, rfl⟩ := (pickNext_returns hready).elim hpick
    obtain ⟨task, htask, hstate⟩ := mem_readyIndices.mp hidx
    simp only [index_eq_ok_iff.mpr htask, ok_bind] at h
    obtain ⟨runCount, -, h⟩ := bind_eq_ok_iff.mp h
    obtain ⟨rrIndex, -, h⟩ := bind_eq_ok_iff.mp h
    cases h
    obtain ⟨front, back, hsplit, -, hset, -⟩ := exists_around htask
    refine .inr ⟨front, task, back,
      { task with state := .running, runCount, lastRun := s.currentTick }, hsplit, hstate, ?_⟩
    exact ⟨rfl, rfl, rfl, rfl, hset _, rfl, rfl⟩

/-- Picking a task adds one to the number of running tasks. -/
theorem running_pick {front back : List RtTask} {task task' : RtTask} (hready : task.state = .ready)
    (hrunning : task'.state = .running) :
    running (front ++ task' :: back) = running (front ++ task :: back) + 1 := by
  simp only [running, List.countP_append, List.countP_cons, hready, hrunning]
  simp only [decide_true, if_true, reduceCtorEq, decide_false, Bool.false_eq_true, if_false]
  omega

theorem running_eq_zero_iff {tasks : List RtTask} :
    running tasks = 0 ↔ ∀ task ∈ tasks, task.state ≠ .running := by
  simp [running, List.countP_eq_zero]

theorem Sound.scheduleNext {s s' : RtSchedInner} {r : Option Nat} (h : Sound s)
    (hidle : r ≠ none → ∀ task ∈ s.tasks, task.state ≠ .running)
    (hstep : scheduleNext s = .ok (r, s')) : Sound s' := by
  rcases of_scheduleNext hstep with ⟨-, rfl⟩ | ⟨front, task, back, task', hsplit, hready, rfl, hid,
    hpriority, hrunning, htasks, hentries, hnext⟩
  · exact h
  · have hold : ∀ t ∈ front ++ task' :: back,
        ∃ t₀ ∈ s.tasks, t.id = t₀.id ∧ t.priority = t₀.priority := by
      intro t ht
      rw [hsplit]
      rcases List.mem_append.mp ht with ht | ht
      · exact ⟨t, by simp [ht], rfl, rfl⟩
      · rcases List.mem_cons.mp ht with rfl | ht
        · exact ⟨task, by simp, hid, hpriority⟩
        · exact ⟨t, by simp [ht], rfl, rfl⟩
    refine ⟨⟨?_, fun t ht => ?_⟩, ?_, fun t ht => ?_⟩
    · have hnodup := h.issued.nodup
      rw [hsplit] at hnodup
      simpa [htasks, hid] using hnodup
    · rw [htasks] at ht
      obtain ⟨t₀, ht₀, hid₀, -⟩ := hold t ht
      rw [hid₀, hnext]
      exact h.issued.key_lt t₀ ht₀
    · have hzero := running_eq_zero_iff.mpr (hidle (by simp))
      rw [htasks, running_pick hready hrunning, ← hsplit]
      omega
    · rw [htasks] at ht
      obtain ⟨t₀, ht₀, hid₀, hpriority₀⟩ := hold t ht
      rw [hid₀, hpriority₀, hentries]
      exact h.covered t₀ ht₀

/-! ### Runs -/

theorem Sound.step {s s' : RtSchedInner} {call : Call} (h : Sound s) (hcareful : Careful s call)
    (hstep : step s call = .ok s') : Sound s' := by
  cases call with
  | create name policy priority period deadline wcet =>
    obtain ⟨⟨r, s₁⟩, hcreate, hrest⟩ := bind_eq_ok_iff.mp hstep
    cases hrest
    rcases of_createRtTask hcreate with ⟨-, rfl⟩ | ⟨rfl, task, hid, hpriority, hstate, rfl⟩
    · exact h
    · refine h.concat hid hstate ?_
      rw [hid, hpriority]
      exact hcareful _ _ hcreate
  | remove id =>
    cases hstep
    exact h.remove id
  | boost holderId blockerId resourceId =>
    cases hstep
    exact h.boost holderId blockerId resourceId
  | restore holderId =>
    cases hstep
    exact h.restore holderId
  | scheduleNext =>
    obtain ⟨⟨r, s₁⟩, hpick, hrest⟩ := bind_eq_ok_iff.mp hstep
    cases hrest
    refine h.scheduleNext (fun hsome => ?_) hpick
    obtain ⟨id, rfl⟩ := Option.ne_none_iff_exists'.mp hsome
    exact hcareful id _ hpick
  | checkDeadlines => exact h.checkDeadlines hstep
  | tick => exact h.tick hstep

/-- A call that is not careful makes a second task run, or creates a task whose priority is
lowered by a boost. -/
theorem not_safe_of_not_careful {s : RtSchedInner} {call : Call} (hmiss : ¬ Careful s call) :
    ∃ s', step s call = .ok s' ∧ ¬ Safe s' := by
  cases call with
  | create name policy priority period deadline wcet =>
    simp only [Careful, not_forall] at hmiss
    obtain ⟨id, s', hcreate, hlow⟩ := hmiss
    refine ⟨s', by simp [RtSched.step, hcreate], fun hsafe => hlow ?_⟩
    rcases of_createRtTask hcreate with ⟨hnone, -⟩ | ⟨hsome, task, hid, hpriority, -, rfl⟩
    · cases hnone
    · have hmem : task ∈ s.tasks ++ [task] := List.mem_append_right _ (List.mem_singleton_self _)
      have hcover := (le_effectivePriority_iff _ task).mp (hsafe.2.1 task hmem)
      rw [Option.some_inj.mp hsome, ← hid, ← hpriority]
      exact hcover
  | scheduleNext =>
    simp only [Careful, not_forall, not_not] at hmiss
    obtain ⟨id, s', hpick, task, htask, hrunning⟩ := hmiss
    refine ⟨s', by simp [RtSched.step, hpick], fun hsafe => ?_⟩
    rcases of_scheduleNext hpick with ⟨hnone, -⟩ |
      ⟨front, picked, back, picked', hsplit, hready, -, -, -, hrunning', htasks, -, -⟩
    · cases hnone
    · have hone := hsafe.1
      rw [htasks, running_pick hready hrunning', ← hsplit] at hone
      exact running_eq_zero_iff.mp (by omega) task htask hrunning
  | remove | boost | restore | checkDeadlines | tick => exact absurd trivial hmiss

/-- In a run of calls from `init`, at most one task is running and no effective priority is
below the task's own throughout, and `priority_restore` makes them equal, exactly when no
task is picked while one is running and no task is created under boosts that lower its
priority. -/
theorem always_safe_iff (calls : List Call) :
    Always step Safe .new calls ↔ Guarded step Careful .new calls :=
  always_iff_guarded Sound (fun _ h => h.safe) (fun _ _ _ h hc hs => h.step hc hs)
    (fun _ _ _ hmiss => not_safe_of_not_careful hmiss) sound_new calls

/-- Two tasks are picked one after the other. -/
def pickTwice : List Call :=
  [.create "a" .fifo 10 0 100 1, .create "b" .fifo 20 0 100 1, .scheduleNext, .scheduleNext]

/-- The number 2 is boosted to priority 10 before it is given to a task of priority 50. -/
def boostTooEarly : List Call :=
  [.create "a" .fifo 10 0 100 1, .boost 2 1 7, .create "b" .fifo 50 0 100 1]

/-- After the first run two tasks are running; after the second one, task 2 has priority 50
and effective priority 10. -/
theorem not_safe_of_pickTwice_or_boostTooEarly :
    (∃ s, run step .new pickTwice = .ok s ∧ running s.tasks = 2) ∧
    (∃ s, run step .new boostTooEarly = .ok s ∧
      s.tasks.map (fun t => (t.id, t.priority, s.effectivePriority t)) =
        [(1, 10, 10), (2, 50, 10)]) ∧
    ¬ Always step Safe .new pickTwice ∧ ¬ Always step Safe .new boostTooEarly := by
  refine ⟨⟨_, rfl, rfl⟩, ⟨_, rfl, rfl⟩, fun halways => ?_, fun halways => ?_⟩
  · have hsafe := halways pickTwice List.prefix_rfl _ rfl
    exact absurd hsafe.1 (by decide)
  · have hsafe := halways boostTooEarly List.prefix_rfl _ rfl
    exact absurd (hsafe.2.1 _ (.tail _ (.head _))) (by decide)

end MerlionKernel.RtSched
