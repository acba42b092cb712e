import Mathlib.Data.List.Induction
import Mathlib.Data.Multiset.MapFold
import MerlionKernel.PQueue.Sift
import MerlionKernel.Theory.Run

/-!
# Runs of the priority queue

The abstract queue is a multiset of entries: `Effect` says what each call does to it and
what it answers. A call on any state that a run from the empty queue reaches has such an
effect and leaves the heap ordered; the only call that does not return is the push that
needs a number past the 64 bits of the counter.
-/

namespace MerlionKernel.PQueue

open Rust Theory Theory.Heap

/-- The calls. -/
inductive Op (T : Type)
  | push (item : T) (priority : I64)
  | pop
  | updatePriority (i : Nat) (newPriority : I64)
  | remove (i : Nat)

/-- The values they return. -/
inductive Answer (T : Type)
  | unit
  | item (item : Option T)
  | flag (done : Bool)

variable {T : Type}

/-- Perform a call. -/
def call (q : PriorityQueue T) : Op T → Exec (Answer T × PriorityQueue T)
  | .push item priority => do
    let q ← q.push item priority
    return (.unit, q)
  | .pop => do
    let (item, q) ← q.pop
    return (.item item, q)
  | .updatePriority i newPriority => do
    let (done, q) ← q.updatePriority i newPriority
    return (.flag done, q)
  | .remove i => do
    let (item, q) ← q.remove i
    return (.item item, q)

/-- Perform a call and drop its answer. -/
def step (q : PriorityQueue T) (op : Op T) : Exec (PriorityQueue T) := do
  let (_, q) ← call q op
  return q

/-- The call is a push. -/
def Op.isPush : Op T → Bool
  | .push _ _ => true
  | _ => false

/-- The entries of the queue. -/
def PriorityQueue.entries (q : PriorityQueue T) : Multiset (HeapEntry T) := q.heap

/-- What a call does to the entries: a push adds one, numbered behind all others; a pop
removes the one that is of higher priority than every other; an update changes the
priority of the entry at the position, and a removal removes it. -/
inductive Effect (q : PriorityQueue T) : Op T → Answer T → PriorityQueue T → Prop
  | push {item : T} {priority : I64} {q' : PriorityQueue T}
      (hentries : q'.entries = ⟨item, priority, q.nextOrder⟩ ::ₘ q.entries)
      (hlast : ∀ entry ∈ q.entries, entry.insertionOrder < q.nextOrder)
      (hnext : q'.nextOrder = q.nextOrder + 1) : Effect q (.push item priority) .unit q'
  | popEmpty (hempty : q.entries = 0) : Effect q .pop (.item none) q
  | pop {entry : HeapEntry T} {q' : PriorityQueue T} (hentries : q.entries = entry ::ₘ q'.entries)
      (hfirst : ∀ other ∈ q'.entries, entry.isHigherPriority other = true)
      (hnext : q'.nextOrder = q.nextOrder) : Effect q .pop (.item (some entry.item)) q'
  | updateOutside {i : Nat} {newPriority : I64} (hi : q.heap.length ≤ i) :
      Effect q (.updatePriority i newPriority) (.flag false) q
  | update {i : Nat} {newPriority : I64} {entry : HeapEntry T} {others : Multiset (HeapEntry T)}
      {q' : PriorityQueue T} (hi : q.heap[i]? = some entry)
      (hentries : q.entries = entry ::ₘ others)
      (hentries' : q'.entries = { entry with priority := newPriority } ::ₘ others)
      (hnext : q'.nextOrder = q.nextOrder) :
      Effect q (.updatePriority i newPriority) (.flag true) q'
  | removeOutside {i : Nat} (hi : q.heap.length ≤ i) : Effect q (.remove i) (.item none) q
  | remove {i : Nat} {entry : HeapEntry T} {q' : PriorityQueue T} (hi : q.heap[i]? = some entry)
      (hentries : q.entries = entry ::ₘ q'.entries) (hnext : q'.nextOrder = q.nextOrder) :
      Effect q (.remove i) (.item (some entry.item)) q'

/-- The heap is ordered, and the counter has numbered the entries. -/
structure Valid (q : PriorityQueue T) : Prop where
  ordered : HeapOrdered q.heap
  below : ∀ entry ∈ q.entries, entry.insertionOrder < q.nextOrder
  distinct : (q.entries.map HeapEntry.insertionOrder).Nodup

theorem valid_new : Valid (PriorityQueue.new : PriorityQueue T) where
  ordered := by
    intro i entry above _ hentry
    cases hentry
  below := fun entry hentry => (List.not_mem_nil hentry).elim
  distinct := Multiset.nodup_zero

/-! ### The effect keeps the numbering -/

theorem Effect.valid {q q' : PriorityQueue T} {op : Op T} {answer : Answer T} (h : Valid q)
    (heffect : Effect q op answer q') (hordered : HeapOrdered q'.heap) : Valid q' := by
  have hdistinct := h.distinct
  have hbelow := h.below
  cases heffect with
  | push hentries hlast hnext =>
    refine ⟨hordered, ?_, ?_⟩
    · rw [hentries, hnext]
      intro entry hentry
      rcases Multiset.mem_cons.mp hentry with rfl | hentry
      · exact Nat.lt_succ_self _
      · exact Nat.lt_succ_of_lt (hlast entry hentry)
    · rw [hentries, Multiset.map_cons, Multiset.nodup_cons]
      refine ⟨fun hmem => ?_, hdistinct⟩
      obtain ⟨entry, hentry, heq⟩ := Multiset.mem_map.mp hmem
      exact Nat.ne_of_lt (hlast entry hentry) heq
  | popEmpty => exact h
  | pop hentries _ hnext =>
    rw [hentries] at hdistinct hbelow
    rw [Multiset.map_cons, Multiset.nodup_cons] at hdistinct
    exact ⟨hordered, fun e he => hnext ▸ hbelow e (Multiset.mem_cons_of_mem he), hdistinct.2⟩
  | updateOutside => exact h
  | @update i newPriority entry others q' _ hentries hentries' hnext =>
    rw [hentries] at hdistinct hbelow
    have hentry := hbelow entry (Multiset.mem_cons_self entry others)
    refine ⟨hordered, ?_, ?_⟩
    · rw [hentries', hnext]
      intro other hother
      rcases Multiset.mem_cons.mp hother with rfl | hother
      · exact hentry
      · exact hbelow other (Multiset.mem_cons_of_mem hother)
    · rw [hentries', Multiset.map_cons]
      rwa [Multiset.map_cons] at hdistinct
  | removeOutside => exact h
  | remove _ hentries hnext =>
    rw [hentries] at hdistinct hbelow
    rw [Multiset.map_cons, Multiset.nodup_cons] at hdistinct
    exact ⟨hordered, fun e he => hnext ▸ hbelow e (Multiset.mem_cons_of_mem he), hdistinct.2⟩

/-! ### The calls -/

section Calls

variable {q : PriorityQueue T}

/-- The postcondition of a call. -/
def Performs (q : PriorityQueue T) (op : Op T) (out : Answer T × PriorityQueue T) : Prop :=
  HeapOrdered out.2.heap ∧ Effect q op out.1 out.2

theorem call_push (h : Valid q) (item : T) (priority : I64) (hroom : q.nextOrder + 1 < 2 ^ 64) :
    Returns (call q (.push item priority)) (Performs q (.push item priority)) := by
  set entry : HeapEntry T := ⟨item, priority, q.nextOrder⟩ with hentry
  have hordered := heapOrdered_iff.mp h.ordered
  have hlen : (q.heap ++ [entry]).length = q.heap.length + 1 := List.length_append
  obtain ⟨hhole, hbelow⟩ := hordered.hole_last (g := keyAt (q.heap ++ [entry])) fun j hj =>
    keyAt_congr (List.getElem?_append_left hj)
  rw [← hlen] at hhole hbelow
  obtain ⟨heap, hrun, hsifted, hperm⟩ := siftUp_returns (by omega) hhole hbelow
  simp only [call, PriorityQueue.push, u64_eq_ok hroom, ok_bind, ← hentry, hlen,
    sub_eq_ok (Nat.le_add_left 1 _), Nat.add_sub_cancel, hrun, pure_eq_ok]
  refine .ok ⟨heapOrdered_iff.mpr hsifted, .push ?_ h.below rfl⟩
  exact Multiset.coe_eq_coe.mpr (hperm.trans (List.perm_append_singleton _ _))

/-- Replacing an entry by the last one leaves a hole in its place. -/
theorem hole_set_last {heap : List (HeapEntry T)} {z : HeapEntry T} {i : Nat}
    (h : HeapOrdered (heap ++ [z])) (hi : i < heap.length) :
    Hole (keyAt (heap.set i z)) (heap.set i z).length i := by
  have hordered := heapOrdered_iff.mp h
  rw [List.length_append] at hordered
  rw [List.length_set]
  refine hordered.hole_of_eq (Nat.le_add_right _ _) hi fun j hj hji => keyAt_congr ?_
  rw [List.getElem?_set_ne (Ne.symm hji), List.getElem?_append_left hj]

/-- The root is of higher priority than every other entry. -/
theorem root_isHigherPriority (h : Valid q) {entry : HeapEntry T}
    {others : Multiset (HeapEntry T)} (hroot : q.heap[0]? = some entry)
    (hentries : q.entries = entry ::ₘ others) :
    ∀ other ∈ others, entry.isHigherPriority other = true := by
  intro other hother
  have hmem : other ∈ q.heap := by
    have hmem : other ∈ q.entries := hentries ▸ Multiset.mem_cons_of_mem hother
    exact hmem
  obtain ⟨j, hj, rfl⟩ := List.getElem_of_mem hmem
  have hle := (heapOrdered_iff.mp h.ordered).root_le hj
  rw [keyAt_eq hroot, keyAt_of_lt hj] at hle
  rw [isHigherPriority_iff]
  refine lt_of_le_of_ne hle fun heq => ?_
  -- Two entries with one key would have the same insertion order.
  have hdistinct := h.distinct
  rw [hentries, Multiset.map_cons, Multiset.nodup_cons] at hdistinct
  have horder : entry.insertionOrder = q.heap[j].insertionOrder :=
    congrArg (fun key => (ofLex key).2) heq
  exact hdistinct.1 (horder ▸ Multiset.mem_map_of_mem _ hother)

theorem call_pop (h : Valid q) : Returns (call q .pop) (Performs q .pop) := by
  have hordered := h.ordered
  rcases List.eq_nil_or_concat q.heap with hempty | ⟨heap, z, hheap⟩
  · simp only [call, PriorityQueue.pop, hempty]
    exact .ok ⟨hordered, .popEmpty (congrArg _ hempty)⟩
  rw [List.concat_eq_append] at hheap
  obtain ⟨entry, hget, hswap, hperm⟩ := swap_last heap z (Nat.zero_le _)
  have hfirst : q.heap[0]? = some entry := hheap ▸ hget
  have hentries : q.entries = entry ::ₘ (heap.set 0 z : Multiset (HeapEntry T)) :=
    Multiset.coe_eq_coe.mpr (hheap ▸ hperm)
  -- What is left of the heap is sifted, or empty.
  have hsift : Returns (if (heap.set 0 z).isEmpty then .ok (heap.set 0 z)
      else siftDown (heap.set 0 z) 0) (Sifted (heap.set 0 z)) := by
    by_cases hnil : heap = []
    · subst hnil
      exact .ok ⟨fun j _ hj => (Nat.not_lt_zero j hj).elim, .refl _⟩
    · rw [if_neg (by simpa using hnil)]
      have hpos : 0 < heap.length := List.length_pos_iff.mpr hnil
      exact siftDown_returns (by rwa [List.length_set]) (hole_set_last (hheap ▸ hordered) hpos)
        fun hlt => absurd hlt (Nat.lt_irrefl 0)
  obtain ⟨heap', hrun, hsifted, hperm'⟩ := hsift
  have hleft : (heap' : Multiset (HeapEntry T)) = heap.set 0 z := Multiset.coe_eq_coe.mpr hperm'
  rw [← hleft] at hentries
  have hnonempty : ¬ (heap ++ [z]).isEmpty = true := by simp
  simp only [call, PriorityQueue.pop, hheap, if_neg hnonempty, List.length_append,
    List.length_singleton, sub_eq_ok (Nat.le_add_left 1 _), Nat.add_sub_cancel, ok_bind, hswap,
    popUnwrap_concat, hrun, pure_eq_ok]
  exact .ok ⟨heapOrdered_iff.mpr hsifted,
    .pop hentries (root_isHigherPriority h hfirst hentries) rfl⟩

theorem key_le_key {a b : HeapEntry T} (hpriority : a.priority.1 ≤ b.priority.1)
    (horder : a.insertionOrder = b.insertionOrder) : a.key ≤ b.key := by
  unfold HeapEntry.key
  rw [Prod.Lex.toLex_le_toLex]
  rcases lt_or_eq_of_le hpriority with hlt | heq
  · exact .inl hlt
  · exact .inr ⟨heq, horder.le⟩

theorem call_updatePriority (h : Valid q) (i : Nat) (newPriority : I64) :
    Returns (call q (.updatePriority i newPriority))
      (Performs q (.updatePriority i newPriority)) := by
  by_cases hout : q.heap.length ≤ i
  · simp only [call, PriorityQueue.updatePriority, if_pos hout]
    exact .ok ⟨h.ordered, .updateOutside hout⟩
  have hi : i < q.heap.length := Nat.lt_of_not_le hout
  have hordered := heapOrdered_iff.mp h.ordered
  set entry := q.heap[i] with hentry
  set entry' : HeapEntry T := { entry with priority := newPriority } with hentry'
  have hkey : keyAt q.heap i = entry.key := keyAt_of_lt hi
  have hkey' : keyAt (q.heap.set i entry') i = entry'.key :=
    keyAt_eq (List.getElem?_set_self hi)
  have hother : ∀ j, j ≠ i → keyAt (q.heap.set i entry') j = keyAt q.heap j :=
    fun j hji => keyAt_congr (List.getElem?_set_ne (Ne.symm hji))
  have hlen : (q.heap.set i entry').length = q.heap.length := List.length_set
  have hi' : i < (q.heap.set i entry').length := by rwa [hlen]
  have hhole : Hole (keyAt (q.heap.set i entry')) (q.heap.set i entry').length i := by
    rw [hlen]
    exact hordered.hole_of_eq (Nat.le_refl _) hi fun j _ hji => hother j hji
  -- A key that did not rise is in order with the children, one that did not fall with the parent.
  have hbelow : newPriority.1 ≤ entry.priority.1 →
      Below (keyAt (q.heap.set i entry')) (q.heap.set i entry').length i := by
    intro hle j hpos hj hpar
    have hlt := parent_lt hpos
    rw [hkey', hother j (by omega)]
    refine le_trans ?_ (hordered.below j hpos (by omega) hpar)
    rw [hkey]
    exact key_le_key hle rfl
  have habove : entry.priority.1 ≤ newPriority.1 → Above (keyAt (q.heap.set i entry')) i := by
    intro hle hpos
    have hlt := parent_lt hpos
    rw [hkey', hother (parent i) (by omega)]
    refine (hordered.above hi hpos).trans ?_
    rw [hkey]
    exact key_le_key hle rfl
  have hsift : Returns (if newPriority.1 < entry.priority.1 then siftUp (q.heap.set i entry') i
      else if newPriority.1 > entry.priority.1 then siftDown (q.heap.set i entry') i
      else .ok (q.heap.set i entry')) (Sifted (q.heap.set i entry')) := by
    split_ifs with hlt hgt
    · exact siftUp_returns hi' hhole (hbelow hlt.le)
    · exact siftDown_returns hi' hhole (habove hgt.le)
    · exact .ok ⟨hhole.ordered (habove (not_lt.mp hlt)) (hbelow (not_lt.mp hgt)), .refl _⟩
  obtain ⟨heap', hrun, hsifted, hperm⟩ := hsift
  simp only [call, PriorityQueue.updatePriority, if_neg hout, index_eq_ok hi, ok_bind, ← hentry,
    ← hentry', store_eq_ok _ hi, hrun, pure_eq_ok]
  have hentries : q.entries = entry ::ₘ (q.heap.eraseIdx i : Multiset (HeapEntry T)) :=
    Multiset.coe_eq_coe.mpr (List.getElem_cons_eraseIdx_perm hi).symm
  refine .ok ⟨heapOrdered_iff.mpr hsifted,
    .update (List.getElem?_eq_getElem hi) hentries ?_ rfl⟩
  exact Multiset.coe_eq_coe.mpr (hperm.trans (List.set_perm_cons_eraseIdx hi entry'))

/-- Both sifts in a row bring an entry into its place. -/
theorem siftUp_siftDown_returns {heap : List (HeapEntry T)} {i : Nat} (hi : i < heap.length)
    (hhole : Hole (keyAt heap) heap.length i) :
    Returns (siftUp heap i >>= fun heap => siftDown heap i) (Sifted heap) := by
  by_cases habove : Above (keyAt heap) i
  · rw [siftUp_of_above hi habove]
    exact siftDown_returns hi hhole habove
  · obtain ⟨hpos, hlt⟩ := Classical.not_imp.mp habove
    rw [not_le] at hlt
    refine (siftUp_returns hi hhole (hhole.below_of_lt hpos hlt)).bind ?_
    rintro up ⟨hordered, hperm⟩
    have hi' : i < up.length := by rwa [hperm.length_eq]
    refine (siftDown_returns hi' (hordered.hole hi') (hordered.above hi')).mono ?_
    exact fun down hdown => ⟨hdown.1, hdown.2.trans hperm⟩

theorem call_remove (h : Valid q) (i : Nat) :
    Returns (call q (.remove i)) (Performs q (.remove i)) := by
  have hordered := h.ordered
  by_cases hout : q.heap.length ≤ i
  · simp only [call, PriorityQueue.remove, if_pos hout]
    exact .ok ⟨hordered, .removeOutside hout⟩
  have hi : i < q.heap.length := Nat.lt_of_not_le hout
  obtain ⟨heap, z, hheap⟩ : ∃ heap z, q.heap = heap ++ [z] := by
    rcases List.eq_nil_or_concat q.heap with hempty | ⟨heap, z, hheap⟩
    · rw [hempty] at hi
      exact absurd hi (Nat.not_lt_zero i)
    · exact ⟨heap, z, by rw [hheap, List.concat_eq_append]⟩
  have hlen : q.heap.length = heap.length + 1 := by rw [hheap]; exact List.length_append
  obtain ⟨entry, hget, hswap, hperm⟩ := swap_last heap z (show i ≤ heap.length by omega)
  have hat : q.heap[i]? = some entry := hheap ▸ hget
  have hentries : q.entries = entry ::ₘ (heap.set i z : Multiset (HeapEntry T)) :=
    Multiset.coe_eq_coe.mpr (hheap ▸ hperm)
  simp only [call, PriorityQueue.remove, if_neg hout]
  by_cases hlast : i = heap.length
  · subst hlast
    have hset : heap.set heap.length z = heap := List.set_eq_of_length_le (Nat.le_refl _)
    obtain rfl : z = entry := by simpa using hget
    rw [hset] at hentries
    have hordered' : HeapOrdered heap := by
      rw [hheap, heapOrdered_iff] at hordered
      refine heapOrdered_iff.mpr (hordered.of_eq ?_ fun j hj => keyAt_congr ?_)
      · exact List.length_append ▸ Nat.le_add_right _ _
      · rw [List.getElem?_append_left hj]
    simp only [hheap, List.length_append, List.length_singleton, sub_eq_ok (Nat.le_add_left 1 _),
      Nat.add_sub_cancel, ok_bind, if_true, List.getLast?_concat, List.dropLast_concat,
      Option.map_some, pure_eq_ok]
    exact .ok ⟨hordered', .remove hat hentries rfl⟩
  · have hi' : i < (heap.set i z).length := by rw [List.length_set]; omega
    have hhole := hole_set_last (hheap ▸ hordered) (show i < heap.length by omega)
    obtain ⟨heap', hrun, hsifted, hperm'⟩ := siftUp_siftDown_returns hi' hhole
    obtain ⟨up, hup, hdown⟩ := bind_eq_ok_iff.mp hrun
    have hleft : (heap' : Multiset (HeapEntry T)) = heap.set i z :=
      Multiset.coe_eq_coe.mpr hperm'
    rw [← hleft] at hentries
    simp only [hheap, List.length_append, List.length_singleton, sub_eq_ok (Nat.le_add_left 1 _),
      Nat.add_sub_cancel, ok_bind, if_neg hlast, hswap, popUnwrap_concat, hup, hdown, pure_eq_ok]
    exact .ok ⟨heapOrdered_iff.mpr hsifted, .remove hat hentries rfl⟩

/-- A call on a valid queue, as long as the counter can number the entry it adds. -/
theorem call_returns (h : Valid q) (op : Op T)
    (hroom : op.isPush = true → q.nextOrder + 1 < 2 ^ 64) :
    Returns (call q op) (Performs q op) := by
  cases op with
  | push item priority => exact call_push h item priority (hroom rfl)
  | pop => exact call_pop h
  | updatePriority i newPriority => exact call_updatePriority h i newPriority
  | remove i => exact call_remove h i

theorem call_exhausted {op : Op T} (hop : op.isPush = true) (hfull : ¬ q.nextOrder + 1 < 2 ^ 64) :
    call q op = .error .overflow := by
  cases op with
  | push item priority =>
    simp only [call, PriorityQueue.push, u64, if_neg hfull]
    rfl
  | pop => cases hop
  | updatePriority i newPriority => cases hop
  | remove i => cases hop

end Calls

/-! ### Runs -/

/-- The counter counts the pushes. -/
theorem Effect.nextOrder_eq {q q' : PriorityQueue T} {op : Op T} {answer : Answer T}
    (h : Effect q op answer q') : q'.nextOrder = q.nextOrder + [op].countP Op.isPush := by
  cases h with
  | push _ _ hnext => exact hnext
  | popEmpty => rfl
  | pop _ _ hnext => exact hnext
  | updateOutside => rfl
  | update _ _ _ hnext => exact hnext
  | removeOutside => rfl
  | remove _ _ hnext => exact hnext

/-- The run stops because the counter is exhausted. -/
def Exhausts (ops : List (Op T)) : Prop :=
  2 ^ 64 ≤ ops.countP Op.isPush ∧ run step .new ops = .error .overflow

theorem Exhausts.concat {ops : List (Op T)} (h : Exhausts ops) (op : Op T) :
    Exhausts (ops ++ [op]) := by
  refine ⟨h.1.trans ?_, ?_⟩
  · rw [List.countP_append]
    exact Nat.le_add_right _ _
  · rw [run_append, h.2]
    rfl

/-- The call after a run that reached a valid queue. -/
theorem step_after_run {ops : List (Op T)} {q : PriorityQueue T} (op : Op T)
    (hrun : run step .new ops = .ok q) (hvalid : Valid q)
    (hcount : q.nextOrder = ops.countP Op.isPush) :
    Returns (call q op) (Performs q op) ∨ Exhausts (ops ++ [op]) := by
  by_cases hroom : op.isPush = true → q.nextOrder + 1 < 2 ^ 64
  · exact .inl (call_returns hvalid op hroom)
  · obtain ⟨hop, hfull⟩ := Classical.not_imp.mp hroom
    refine .inr ⟨?_, ?_⟩
    · rw [List.countP_append, List.countP_singleton, if_pos hop, ← hcount]
      exact not_lt.mp hfull
    · rw [run_append, hrun, ok_bind, run_cons, step, call_exhausted hop hfull]
      rfl

/-- A run reaches a valid queue, unless the counter is exhausted on the way. -/
theorem run_valid (ops : List (Op T)) :
    (∃ q, run step .new ops = .ok q ∧ Valid q ∧ q.nextOrder = ops.countP Op.isPush) ∨
      Exhausts ops := by
  induction ops using List.reverseRecOn with
  | nil => exact .inl ⟨.new, rfl, valid_new, rfl⟩
  | append_singleton ops op ih =>
    rcases ih with ⟨q, hrun, hvalid, hcount⟩ | hstop
    · rcases step_after_run op hrun hvalid hcount with hcall | hstop
      · obtain ⟨⟨answer, q'⟩, hcall, hordered, heffect⟩ := hcall
        refine .inl ⟨q', ?_, heffect.valid hvalid hordered, ?_⟩
        · rw [run_append, hrun, ok_bind, run_cons, step, hcall]
          rfl
        · rw [heffect.nextOrder_eq, hcount, List.countP_append]
      · exact .inr hstop
    · exact .inr (hstop.concat op)

/-- After any sequence of calls on a new queue, any call returns with an ordered heap and has
its effect on the entries; or the calls contain 2^64 pushes, and the sequence stops because
the counter of insertions overflows. -/
theorem call_after_run (ops : List (Op T)) (op : Op T) :
    (∃ q answer q', run step .new ops = .ok q ∧ call q op = .ok (answer, q') ∧
        HeapOrdered q'.heap ∧ Effect q op answer q') ∨
      2 ^ 64 ≤ (ops ++ [op]).countP Op.isPush ∧ run step .new (ops ++ [op]) = .error .overflow := by
  rcases run_valid ops with ⟨q, hrun, hvalid, hcount⟩ | hstop
  · rcases step_after_run op hrun hvalid hcount with hcall | hstop
    · obtain ⟨⟨answer, q'⟩, hcall, hordered, heffect⟩ := hcall
      exact .inl ⟨q, answer, q', hrun, hcall, hordered, heffect⟩
    · exact .inr hstop
  · exact .inr (hstop.concat op)

end MerlionKernel.PQueue
