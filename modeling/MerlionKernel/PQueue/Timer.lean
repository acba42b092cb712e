import Mathlib.Data.Multiset.Filter
import MerlionKernel.PQueue.Calls

/-!
# The timer queue

`TimerQueue` of `pqueue.rs` keeps the pending callbacks in a priority queue, with their deadlines
as priorities. A deadline is a `u64` and a priority an `i64`: from 2^63 on a deadline counts as
negative, and the callback is taken for one that is long overdue.

`Timers` says what the queue is for: the callbacks with their deadlines as natural numbers. As long
as the ticks stay below 2^63 the queue is such a collection, and a poll takes from it what is due.
-/

namespace MerlionKernel.PQueue

open Rust Theory

/-- `tick as i64`. -/
def asI64 (tick : UInt64) : I64 :=
  ⟨asIsize tick.toNat, by
    have hlt := tick.toNat_lt
    unfold asIsize
    split <;> omega⟩

/-- The deadlines of delayed callbacks, in a heap. -/
structure TimerQueue where
  entries : PriorityQueue UInt64
  currentTick : UInt64

/-- `a.saturating_add(b)`. -/
def saturatingAdd (a b : UInt64) : UInt64 :=
  if a.toNat + b.toNat < 2 ^ 64 then a + b else UInt64.ofNat (2 ^ 64 - 1)

namespace TimerQueue

/-- `new`. -/
def new : TimerQueue := ⟨.new, 0⟩

/-- `set_tick`. -/
def setTick (q : TimerQueue) (tick : UInt64) : TimerQueue := { q with currentTick := tick }

/-- `schedule`. -/
def schedule (q : TimerQueue) (ticksFromNow callbackId : UInt64) : Exec TimerQueue := do
  let deadline := saturatingAdd q.currentTick ticksFromNow
  let entries ← q.entries.push callbackId (asI64 deadline)
  return { q with entries }

/-- One round of the loop of `poll_expired`, on the heap and the callbacks found so far. -/
def pollRound (now : UInt64) (s : PriorityQueue UInt64 × List UInt64) :
    Exec (ControlFlow (PriorityQueue UInt64 × List UInt64)
      (PriorityQueue UInt64 × List UInt64)) := do
  match s.1.heap[0]? with
  | some entry =>
    if entry.priority.1 ≤ (asI64 now).1 then
      let (id, entries) ← s.1.pop
      return .again (entries, s.2 ++ id.toList)
    else return .stop s
  | none => return .stop s

/-- `poll_expired`. -/
def pollExpired (q : TimerQueue) (now : UInt64) : Exec (List UInt64 × TimerQueue) := do
  let (entries, expired) ← loop (pollRound now) (q.entries.heap.length + 1) (q.entries, [])
  return (expired, ⟨entries, now⟩)

end TimerQueue

/-! ### What is pending -/

/-- The pending callbacks with their deadlines, the current tick, and how many callbacks were
scheduled so far. -/
structure Timers where
  tick : UInt64
  pending : Multiset (Nat × UInt64)
  scheduled : Nat

/-- A call of the timer queue. -/
inductive TimerOp
  | setTick (tick : UInt64)
  | schedule (ticksFromNow callbackId : UInt64)
  | pollExpired (now : UInt64)

namespace Timers

def new : Timers := ⟨0, 0, 0⟩

/-- The deadline of a callback scheduled now. -/
def deadline (t : Timers) (ticksFromNow : UInt64) : Nat :=
  min (t.tick.toNat + ticksFromNow.toNat) (2 ^ 64 - 1)

/-- What a call makes of the callbacks. -/
def step (t : Timers) : TimerOp → Timers
  | .setTick tick => { t with tick }
  | .schedule ticksFromNow callbackId =>
    { t with
      pending := (t.deadline ticksFromNow, callbackId) ::ₘ t.pending
      scheduled := t.scheduled + 1 }
  | .pollExpired now =>
    { t with tick := now, pending := t.pending.filter fun p => now.toNat < p.1 }

def after (ops : List TimerOp) : Timers := ops.foldl step .new

/-- The callbacks are those that are due, in the order of their deadlines. -/
def Fires (t : Timers) (now : UInt64) (ids : List UInt64) : Prop :=
  ∃ fired : List (Nat × UInt64), ids = fired.map Prod.snd ∧
    (fired : Multiset (Nat × UInt64)) = t.pending.filter (fun p => p.1 ≤ now.toNat) ∧
    fired.Pairwise fun p p' => p.1 ≤ p'.1

/-- The ticks of the call lie below 2^63, and the counter can number the callback. -/
def Admits (t : Timers) : TimerOp → Prop
  | .setTick _ => True
  | .schedule ticksFromNow _ => t.deadline ticksFromNow < 2 ^ 63 ∧ t.scheduled + 1 < 2 ^ 64
  | .pollExpired now => now.toNat < 2 ^ 63

end Timers

/-- Every call is admitted after those before it. -/
def InRange (ops : List TimerOp) : Prop :=
  ∀ done op, done ++ [op] <+: ops → (Timers.after done).Admits op

/-- A call, without its answer. -/
def TimerQueue.step (q : TimerQueue) : TimerOp → Exec TimerQueue
  | .setTick tick => return q.setTick tick
  | .schedule ticksFromNow callbackId => q.schedule ticksFromNow callbackId
  | .pollExpired now => do
    let (_, q) ← q.pollExpired now
    return q

/-- The deadline and the callback of an entry. -/
def due (entry : HeapEntry UInt64) : Nat × UInt64 := (entry.priority.1.toNat, entry.item)

/-- The callbacks in the queue. -/
def TimerQueue.pending (q : TimerQueue) : Multiset (Nat × UInt64) := q.entries.entries.map due

/-! ### One poll -/

section Poll

variable {q : PriorityQueue UInt64} {now : UInt64}

theorem priority_le_of_isHigherPriority {a b : HeapEntry UInt64}
    (h : a.isHigherPriority b = true) : a.priority.1 ≤ b.priority.1 := by
  unfold HeapEntry.isHigherPriority at h
  split at h
  · exact (of_decide_eq_true h).le
  · next heq => exact (congrArg Subtype.val (not_not.mp heq)).le

/-- The root of a heap is at most every other entry. -/
theorem root_priority_le (h : Valid q) {root : HeapEntry UInt64} (hroot : q.heap[0]? = some root)
    {entry : HeapEntry UInt64} (hentry : entry ∈ q.entries) :
    root.priority.1 ≤ entry.priority.1 := by
  obtain ⟨others, hothers⟩ := Multiset.exists_cons_of_mem
    (show root ∈ q.entries from List.mem_of_getElem? hroot)
  rw [hothers, Multiset.mem_cons] at hentry
  rcases hentry with rfl | hother
  · exact le_rfl
  · exact priority_le_of_isHigherPriority (root_isHigherPriority h hroot hothers _ hother)

/-- Popping an entry from a queue that is not empty. -/
theorem pop_returns (h : Valid q) {root : HeapEntry UInt64} (hroot : q.heap[0]? = some root) :
    Returns q.pop fun (id, q') => Valid q' ∧ q'.nextOrder = q.nextOrder ∧
      ∃ entry, id = some entry.item ∧ q.entries = entry ::ₘ q'.entries ∧
        ∀ other ∈ q'.entries, entry.priority.1 ≤ other.priority.1 := by
  obtain ⟨⟨answer, q'⟩, hcall, hordered, heffect⟩ := call_pop h
  have hvalid := heffect.valid h hordered
  obtain ⟨⟨id, q''⟩, hpop, hanswer⟩ := bind_eq_ok_iff.mp hcall
  cases hanswer
  refine ⟨(id, q'), hpop, hvalid, heffect.nextOrder_eq, ?_⟩
  have hmem : root ∈ q.entries := List.mem_of_getElem? hroot
  generalize hid : Answer.item id = answer at heffect
  cases heffect with
  | popEmpty hempty =>
    rw [hempty] at hmem
    exact absurd hmem (Multiset.notMem_zero root)
  | @pop entry _ hentries hfirst =>
    cases hid
    exact ⟨entry, rfl, hentries, fun other hother =>
      priority_le_of_isHigherPriority (hfirst other hother)⟩

/-- What the rounds of a poll have done: the entries found are due, in order and before all that
are left. -/
structure Polled (q : PriorityQueue UInt64) (now : UInt64)
    (s : PriorityQueue UInt64 × List UInt64) : Prop where
  valid : Valid s.1
  nextOrder : s.1.nextOrder = q.nextOrder
  split : ∃ fired : List (HeapEntry UInt64), s.2 = fired.map HeapEntry.item ∧
    q.entries = fired + s.1.entries ∧ (∀ e ∈ fired, e.priority.1 ≤ (asI64 now).1) ∧
    fired.Pairwise (fun e e' => e.priority.1 ≤ e'.priority.1) ∧
    ∀ e ∈ fired, ∀ other ∈ s.1.entries, e.priority.1 ≤ other.priority.1

theorem pollRound_returns {s : PriorityQueue UInt64 × List UInt64} (h : Polled q now s) :
    Returns (TimerQueue.pollRound now s) (ControlFlow.Post
      (fun s' => Polled q now s' ∧ s'.1.heap.length < s.1.heap.length)
      fun s' => Polled q now s' ∧ ∀ e ∈ s'.1.entries, (asI64 now).1 < e.priority.1) := by
  unfold TimerQueue.pollRound
  cases hroot : s.1.heap[0]? with
  | none =>
    have hempty : s.1.entries = 0 := by
      have hheap : s.1.heap = [] := by simpa using hroot
      exact congrArg _ hheap
    refine .ok ⟨h, fun e he => ?_⟩
    rw [hempty] at he
    exact absurd he (Multiset.notMem_zero e)
  | some root =>
    by_cases hdue : root.priority.1 ≤ (asI64 now).1
    · simp only [if_pos hdue]
      obtain ⟨fired, hexpired, hentries, hnow, hsorted, hbefore⟩ := h.split
      obtain ⟨⟨id, q'⟩, hpop, hvalid, hnext, entry, rfl, hcons, hfirst⟩ := pop_returns h.valid hroot
      rw [hpop, ok_bind]
      have hmem : entry ∈ s.1.entries := hcons ▸ Multiset.mem_cons_self entry q'.entries
      have hle : entry.priority.1 ≤ root.priority.1 := by
        have hr : root ∈ s.1.entries := List.mem_of_getElem? hroot
        rw [hcons, Multiset.mem_cons] at hr
        rcases hr with rfl | hr
        · exact le_rfl
        · exact hfirst root hr
      refine .ok ⟨⟨hvalid, hnext.trans h.nextOrder, fired ++ [entry], ?_, ?_, ?_, ?_, ?_⟩, ?_⟩
      · simp [hexpired]
      · show q.entries = (fired ++ [entry] : List (HeapEntry UInt64)) + q'.entries
        rw [hentries, hcons, ← Multiset.coe_add, Multiset.add_assoc]
        rfl
      · intro e he
        rcases List.mem_append.mp he with he | he
        · exact hnow e he
        · rw [List.mem_singleton.mp he]
          exact hle.trans hdue
      · refine List.pairwise_append.mpr ⟨hsorted, List.pairwise_singleton _ _, ?_⟩
        intro e he e' he'
        rw [List.mem_singleton.mp he']
        exact hbefore e he entry hmem
      · intro e he other hother
        rcases List.mem_append.mp he with he | he
        · exact hbefore e he other (hcons ▸ Multiset.mem_cons_of_mem hother)
        · rw [List.mem_singleton.mp he]
          exact hfirst other hother
      · have hcard := congrArg Multiset.card hcons
        rw [Multiset.card_cons] at hcard
        exact Nat.lt_of_succ_le hcard.ge
    · simp only [if_neg hdue]
      exact .ok ⟨h, fun e he => (not_le.mp hdue).trans_le (root_priority_le h.valid hroot he)⟩

/-- A poll of a queue takes the entries that are due off it, in order. -/
theorem pollExpired_returns {timer : TimerQueue} (h : Valid timer.entries) (now : UInt64) :
    Returns (timer.pollExpired now) fun (ids, timer') =>
      timer'.currentTick = now ∧ Polled timer.entries now (timer'.entries, ids) ∧
        ∀ e ∈ timer'.entries.entries, (asI64 now).1 < e.priority.1 := by
  have hstart : Polled timer.entries now (timer.entries, []) :=
    ⟨h, rfl, [], rfl, (Multiset.zero_add _).symm, by simp, .nil, by simp⟩
  refine (loop_returns (Polled timer.entries now) (fun s => s.1.heap.length)
    (fun s hs => pollRound_returns hs) hstart (Nat.lt_succ_self _)).bind ?_
  rintro ⟨entries, expired⟩ hpolled
  exact .ok ⟨rfl, hpolled⟩

end Poll

/-! ### Runs -/

/-- The queue holds the pending callbacks, all of them with deadlines below 2^63. -/
structure Tracks (q : TimerQueue) (t : Timers) : Prop where
  valid : Valid q.entries
  nextOrder : q.entries.nextOrder = t.scheduled
  tick : q.currentTick = t.tick
  nonneg : ∀ e ∈ q.entries.entries, 0 ≤ e.priority.1
  pending : q.pending = t.pending

theorem asI64_of_lt {tick : UInt64} (h : tick.toNat < 2 ^ 63) : (asI64 tick).1 = tick.toNat :=
  asIsize_of_lt h

theorem toNat_saturatingAdd (a b : UInt64) :
    (saturatingAdd a b).toNat = min (a.toNat + b.toNat) (2 ^ 64 - 1) := by
  unfold saturatingAdd
  split
  · next h =>
    rw [UInt64.toNat_add, Nat.mod_eq_of_lt h]
    omega
  · next h =>
    rw [UInt64.toNat_ofNat_of_lt' (by decide)]
    omega

theorem schedule_returns {q : TimerQueue} {t : Timers} (h : Tracks q t) {ticks id : UInt64}
    (hfits : t.Admits (.schedule ticks id)) :
    Returns (q.schedule ticks id) fun q' => Tracks q' (t.step (.schedule ticks id)) := by
  obtain ⟨⟨answer, entries⟩, hcall, hordered, heffect⟩ :=
    call_push h.valid id (asI64 (saturatingAdd q.currentTick ticks)) (h.nextOrder ▸ hfits.2)
  have hvalid := heffect.valid h.valid hordered
  obtain ⟨entries', hpush, hanswer⟩ := bind_eq_ok_iff.mp hcall
  cases hanswer
  have hdeadline : (asI64 (saturatingAdd q.currentTick ticks)).1 = t.deadline ticks := by
    have hsum := toNat_saturatingAdd q.currentTick ticks
    rw [h.tick] at hsum ⊢
    rw [asI64_of_lt (hsum ▸ hfits.1), hsum]
    rfl
  cases heffect with
  | push hentries _ hnext =>
    dsimp only [TimerQueue.schedule]
    rw [hpush, ok_bind]
    refine .ok ⟨hvalid, hnext.trans (congrArg (· + 1) h.nextOrder), h.tick, ?_, ?_⟩
    · intro e he
      rw [hentries, Multiset.mem_cons] at he
      rcases he with rfl | he
      · exact hdeadline ▸ Int.natCast_nonneg _
      · exact h.nonneg e he
    · rw [TimerQueue.pending, hentries, Multiset.map_cons]
      refine congrArg₂ _ (Prod.ext ?_ rfl) h.pending
      exact (congrArg Int.toNat hdeadline).trans (Int.toNat_natCast _)

/-- A poll fires what is due, and leaves the rest. -/
theorem pollExpired_fires {q : TimerQueue} {t : Timers} (h : Tracks q t) {now : UInt64}
    (hnow : now.toNat < 2 ^ 63) :
    Returns (q.pollExpired now) fun (ids, q') =>
      t.Fires now ids ∧ Tracks q' (t.step (.pollExpired now)) := by
  refine (pollExpired_returns h.valid now).mono ?_
  rintro ⟨ids, q'⟩ ⟨htick, ⟨hvalid, hnext, fired, hids, hentries, hdue, hsorted, -⟩, hlater⟩
  rw [asI64_of_lt hnow] at hdue hlater
  have hnonneg : ∀ e, e ∈ fired ∨ e ∈ q'.entries.entries → 0 ≤ e.priority.1 := by
    intro e he
    refine h.nonneg e ?_
    rw [hentries, Multiset.mem_add]
    exact he
  have hpending : t.pending = (fired.map due : Multiset (Nat × UInt64)) + q'.pending := by
    rw [← h.pending, TimerQueue.pending, hentries, Multiset.map_add, Multiset.map_coe]
    rfl
  have hfired : ∀ p ∈ (fired.map due : Multiset (Nat × UInt64)), p.1 ≤ now.toNat := by
    intro p hp
    obtain ⟨e, he, rfl⟩ := List.mem_map.mp hp
    have hle := hdue e he
    show e.priority.1.toNat ≤ now.toNat
    omega
  have hrest : ∀ p ∈ q'.pending, now.toNat < p.1 := by
    intro p hp
    obtain ⟨e, he, rfl⟩ := Multiset.mem_map.mp hp
    have hlt := hlater e he
    show now.toNat < e.priority.1.toNat
    omega
  refine ⟨⟨fired.map due, ?_, ?_, ?_⟩, hvalid, hnext.trans h.nextOrder, htick,
    fun e he => hnonneg e (.inr he), ?_⟩
  · refine (show ids = fired.map HeapEntry.item from hids).trans ?_
    rw [List.map_map]
    rfl
  · rw [hpending, Multiset.filter_add, Multiset.filter_eq_self.mpr hfired,
      Multiset.filter_eq_nil.mpr fun p hp => not_le.mpr (hrest p hp), Multiset.add_zero]
  · exact List.pairwise_map.mpr (hsorted.imp fun hle => Int.toNat_le_toNat hle)
  · show q'.pending = t.pending.filter fun p => now.toNat < p.1
    rw [hpending, Multiset.filter_add, Multiset.filter_eq_self.mpr hrest,
      Multiset.filter_eq_nil.mpr fun p hp => not_lt.mpr (hfired p hp), Multiset.zero_add]

/-- A call that is admitted keeps the queue in step with the callbacks. -/
theorem step_tracks {q : TimerQueue} {t : Timers} (h : Tracks q t) {op : TimerOp}
    (hop : t.Admits op) : Returns (q.step op) fun q' => Tracks q' (t.step op) := by
  cases op with
  | setTick tick => exact .ok ⟨h.valid, h.nextOrder, rfl, h.nonneg, h.pending⟩
  | schedule ticks id => exact schedule_returns h hop
  | pollExpired now =>
    refine (pollExpired_fires h hop).bind ?_
    rintro ⟨ids, q'⟩ hq'
    exact .ok hq'.2

theorem run_tracks {ops : List TimerOp} (h : InRange ops) :
    Returns (run TimerQueue.step .new ops) fun q => Tracks q (Timers.after ops) := by
  induction ops using List.reverseRecOn with
  | nil => exact .ok ⟨valid_new, rfl, rfl, fun e he => absurd he (List.not_mem_nil), rfl⟩
  | append_singleton ops op ih =>
    have hops : InRange ops := fun done op' hdone =>
      h done op' (hdone.trans (List.prefix_append _ _))
    rw [run_append, Timers.after, List.foldl_append]
    refine (ih hops).bind fun q hq => ?_
    rw [run_cons]
    refine (step_tracks hq (h ops op (List.prefix_refl _))).bind ?_
    intro q' hq'
    exact .ok hq'

/-- In every run whose ticks stay below 2^63, every poll returns the callbacks that are due, in the
order of their deadlines, and leaves exactly the others. -/
theorem pollExpired_exact {ops done : List TimerOp} {now : UInt64} (hops : InRange ops)
    (hpoll : done ++ [.pollExpired now] <+: ops) :
    ∃ q ids q', run TimerQueue.step .new done = .ok q ∧ q.pollExpired now = .ok (ids, q') ∧
      (Timers.after done).Fires now ids ∧
      q'.pending = (Timers.after done).pending.filter fun p => now.toNat < p.1 := by
  have hdone : InRange done := fun first op hfirst =>
    hops first op (hfirst.trans ((List.prefix_append _ _).trans hpoll))
  obtain ⟨q, hrun, hq⟩ := run_tracks hdone
  obtain ⟨⟨ids, q'⟩, hids, hfires, hq'⟩ := pollExpired_fires hq (hops done _ hpoll)
  exact ⟨q, ids, q', hrun, hids, hfires, hq'.pending⟩

theorem pollExpired_exact_scheduled :
    ∃ q ids q', run TimerQueue.step .new [.schedule 5 1] = .ok q ∧
      q.pollExpired 7 = .ok (ids, q') ∧ (Timers.after [.schedule 5 1]).Fires 7 ids ∧
      q'.pending =
        (Timers.after [.schedule 5 1]).pending.filter fun p => (7 : UInt64).toNat < p.1 := by
  refine @pollExpired_exact [.schedule 5 1, .pollExpired 7] _ _ ?_ List.prefix_rfl
  intro done op hdone
  match done, hdone with
  | [], hdone =>
    obtain ⟨rfl, -⟩ := List.cons_prefix_cons.mp hdone
    exact ⟨by decide, by decide⟩
  | [first], hdone =>
    obtain ⟨-, hdone⟩ := List.cons_prefix_cons.mp hdone
    obtain ⟨rfl, -⟩ := List.cons_prefix_cons.mp hdone
    exact (by decide : (7 : UInt64).toNat < 2 ^ 63)
  | first :: second :: rest, hdone =>
    have hlen := hdone.length_le
    simp at hlen

/-- A callback scheduled for the end of time is returned by the first poll. -/
theorem pollExpired_fires_last :
    ∃ q q', run TimerQueue.step .new [.schedule (UInt64.ofNat (2 ^ 64 - 1)) 1] = .ok q ∧
      q.pollExpired 0 = .ok ([1], q') ∧
      ¬ (Timers.after [.schedule (UInt64.ofNat (2 ^ 64 - 1)) 1]).Fires 0 [1] := by
  refine ⟨_, _, rfl, rfl, ?_⟩
  rintro ⟨fired, hids, hfired, -⟩
  have hempty : (Timers.after [.schedule (UInt64.ofNat (2 ^ 64 - 1)) 1]).pending.filter
      (fun p => p.1 ≤ (0 : UInt64).toNat) = 0 := by
    refine Multiset.filter_eq_nil.mpr fun p hp => ?_
    obtain rfl := Multiset.mem_singleton.mp hp
    decide
  rw [hempty, Multiset.coe_eq_zero] at hfired
  subst hfired
  cases hids

end MerlionKernel.PQueue
