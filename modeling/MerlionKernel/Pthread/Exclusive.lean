import Mathlib.Data.List.Dedup
import MerlionKernel.Pthread.Rwlock

/-!
# Readers and writers exclude each other

Under every interleaving in which a thread unlocks only what it holds, the locks are correct: two
holds of one lock are both for reading, the counter is the number of read holds, the flag tells
whether there is a write hold, and no unlock takes the counter below zero. A thread may hold a lock
for reading several times, and each hold is counted, so the counter is not the number of reading
threads. The counter has 32 bits and is not checked: with 2^32 read holds it is zero again, and a
writer gets in.
-/

namespace MerlionKernel.Pthread

open Rust Theory

universe u

variable {τ : Type u} {s : System τ} {locks : Rwlocks} {id : UInt32} {i : Nat}
  {rw : PthreadRwlock}

/-- The entry that was found is in the table. -/
theorem getElem?_of_find (h : find locks id = some (i, rw)) : locks[i]? = some (some rw) := by
  obtain ⟨j, -, hj⟩ := Option.bind_eq_some_iff.mp h
  obtain ⟨rw', hget, heq⟩ := Option.map_eq_some_iff.mp hj
  obtain ⟨rfl, rfl⟩ := Prod.mk.inj heq
  exact Option.join_eq_some_iff.mp hget

/-- What is known of all entries after one was changed. -/
theorem forall_set {p : Nat → PthreadRwlock → Prop} {rw' : PthreadRwlock} (hnew : p i rw')
    (hold : ∀ j rw, j ≠ i → locks[j]? = some (some rw) → p j rw) :
    ∀ j rw, (locks.set i (some rw'))[j]? = some (some rw) → p j rw := by
  intro j rw hget
  by_cases hj : j = i
  · subst hj
    rw [List.getElem?_set] at hget
    split at hget
    · split at hget
      · obtain rfl := Option.some.inj (Option.some.inj hget)
        exact hnew
      · cases hget
    · exact absurd rfl ‹¬ j = j›
  · rw [List.getElem?_set_ne (Ne.symm hj)] at hget
    exact hold j rw hj hget

/-- The system is correct, and only entries of the table are held. -/
structure Invariant (s : System τ) : Prop where
  correct : Correct s
  inTable : ∀ h ∈ s.holds, h.lock < s.rwlocks.length

theorem Invariant.tracks (h : Invariant s) (hfind : find s.rwlocks id = some (i, rw)) :
    Tracks s.holds i rw.readers.toNat rw.writer :=
  h.correct.tracks i rw (getElem?_of_find hfind)

/-- One entry is changed, together with the holds of its lock. -/
theorem Invariant.set (h : Invariant s) (hfind : find s.rwlocks id = some (i, rw))
    {rw' : PthreadRwlock} {holds : List (Hold τ Nat)} (hex : Exclusive holds)
    (hself : Tracks holds i rw'.readers.toNat rw'.writer)
    (hother : ∀ j readers writer, j ≠ i → Tracks s.holds j readers writer →
      Tracks holds j readers writer)
    (hmem : ∀ hold ∈ holds, hold ∈ s.holds ∨ hold.lock = i) :
    Invariant { s with rwlocks := s.rwlocks.set i (some rw'), holds := holds } where
  correct := ⟨hex, forall_set hself fun j rw hj hget =>
    hother j _ _ hj (h.correct.tracks j rw hget)⟩
  inTable := by
    intro hold hhold
    rw [List.length_set]
    rcases hmem hold hhold with hold' | rfl
    · exact h.inTable hold hold'
    · exact (List.getElem?_eq_some_iff.mp (getElem?_of_find hfind)).1

/-- A lock is taken. -/
theorem Invariant.add (h : Invariant s) (hfind : find s.rwlocks id = some (i, rw))
    {rw' : PthreadRwlock} {t : τ} {mode : Mode} (hex : Exclusive (⟨t, i, mode⟩ :: s.holds))
    (hself : Tracks (⟨t, i, mode⟩ :: s.holds) i rw'.readers.toNat rw'.writer) :
    Invariant
      { s with rwlocks := s.rwlocks.set i (some rw'), holds := ⟨t, i, mode⟩ :: s.holds } := by
  apply h.set hfind hex hself
  · exact fun j _ _ hj ht => ht.cons_of_ne (Ne.symm hj)
  · intro hold hhold
    rcases List.mem_cons.mp hhold with rfl | hold'
    · exact .inr rfl
    · exact .inl hold'

theorem invariant_init : Invariant (.init : System τ) where
  correct := ⟨.nil, fun i rw h => by simp [System.init] at h⟩
  inTable := fun hold h => absurd h List.not_mem_nil

/-- A new lock is free. -/
theorem Invariant.create (h : Invariant s) (id : UInt32) (drawn : List (τ × UInt32)) :
    Invariant { s with rwlocks := create s.rwlocks id, drawn := drawn } := by
  unfold Pthread.create
  split
  · refine ⟨⟨h.correct.exclusive, fun i rw hget => ?_⟩, fun hold hhold => ?_⟩
    · rcases Nat.lt_or_ge i s.rwlocks.length with hlt | hge
      · rw [List.getElem?_append_left hlt] at hget
        exact h.correct.tracks i rw hget
      · rw [List.getElem?_append_right hge, List.getElem?_singleton] at hget
        split at hget
        · obtain rfl := Option.some.inj (Option.some.inj hget)
          exact tracks_of_forall_ne fun hold hhold => Nat.ne_of_lt
            (Nat.lt_of_lt_of_le (h.inTable hold hhold) hge)
        · cases hget
    · rw [List.length_append]
      exact Nat.lt_add_right _ (h.inTable hold hhold)
  · exact ⟨⟨h.correct.exclusive, h.correct.tracks⟩, h.inTable⟩

/-! ### What a guarded step does -/

theorem rdlock_cases (locks : Rwlocks) (id : UInt32) :
    (∃ answer, answer ≠ some 0 ∧ rdlock locks id = (answer, locks)) ∨
      ∃ i rw, find locks id = some (i, rw) ∧ rw.writer = false ∧
        rdlock locks id = (some 0, locks.set i (some { rw with readers := rw.readers + 1 })) := by
  unfold rdlock
  cases hfind : find locks id with
  | none => exact .inl ⟨some (-1), by decide, rfl⟩
  | some found =>
    obtain ⟨i, rw⟩ := found
    cases hwriter : rw.writer with
    | true => exact .inl ⟨none, by decide, by simp [hwriter]⟩
    | false => exact .inr ⟨i, rw, rfl, hwriter, by simp [hwriter]⟩

theorem wrlock_cases (locks : Rwlocks) (id : UInt32) :
    (∃ answer, answer ≠ some 0 ∧ wrlock locks id = (answer, locks)) ∨
      ∃ i rw, find locks id = some (i, rw) ∧ rw.writer = false ∧ rw.readers = 0 ∧
        wrlock locks id = (some 0, locks.set i (some { rw with writer := true })) := by
  unfold wrlock
  cases hfind : find locks id with
  | none => exact .inl ⟨some (-1), by decide, rfl⟩
  | some found =>
    obtain ⟨i, rw⟩ := found
    by_cases hfree : rw.writer = false ∧ rw.readers = 0
    · exact .inr ⟨i, rw, rfl, hfree.1, hfree.2, by simp [hfree]⟩
    · have hcond : ¬ (!rw.writer && rw.readers == 0) = true := by simpa using hfree
      exact .inl ⟨none, by decide, if_neg hcond⟩

/-- The entry of a lock that is unlocked. -/
def unlocked (rw : PthreadRwlock) : PthreadRwlock :=
  if rw.writer then { rw with writer := false } else { rw with readers := rw.readers - 1 }

theorem unlock_of_find (h : find locks id = some (i, rw)) :
    unlock locks id = (some 0, locks.set i (some (unlocked rw))) := by
  unfold unlock unlocked
  rw [h]
  dsimp only
  split <;> rfl

/-- A step that does not return 0 leaves everything as it is. -/
theorem after_of_ne {answer : Option Int} (h : answer ≠ some 0) (id : UInt32)
    (change : Nat → List (Hold τ Nat)) : s.after id (answer, s.rwlocks) change = s := by
  rw [System.after, if_neg h]

theorem after_of_find (h : find s.rwlocks id = some (i, rw)) (locks : Rwlocks)
    (change : Nat → List (Hold τ Nat)) :
    s.after id (some 0, locks) change = { s with rwlocks := locks, holds := change i } := by
  rw [System.after, if_pos rfl, h]
  rfl

/-! ### The invariant -/

/-- A reader is admitted. -/
theorem Invariant.rdlock (h : Invariant s) (t : τ) (hfits : Fits s (.rdlock t id)) :
    Invariant (s.after id (rdlock s.rwlocks id) fun i => ⟨t, i, .read⟩ :: s.holds) := by
  rcases rdlock_cases s.rwlocks id with ⟨answer, hne, hturn⟩ | ⟨i, rw, hfind, hwriter, hturn⟩
  · rw [hturn, after_of_ne hne]
    exact h
  · have htracks := h.tracks hfind
    rw [hwriter] at htracks
    have hbound := hfits i rw hfind
    rw [← htracks.readers_eq] at hbound
    have hsum : (rw.readers + 1).toNat = rw.readers.toNat + 1 := by
      rw [UInt32.toNat_add]
      exact Nat.mod_eq_of_lt hbound
    rw [hturn, after_of_find hfind]
    apply h.add hfind (h.correct.exclusive.read htracks)
    dsimp only
    rw [hsum, hwriter]
    exact htracks.read

/-- A writer is admitted. -/
theorem Invariant.wrlock (h : Invariant s) (t : τ) (id : UInt32) :
    Invariant (s.after id (wrlock s.rwlocks id) fun i => ⟨t, i, .write⟩ :: s.holds) := by
  rcases wrlock_cases s.rwlocks id with
    ⟨answer, hne, hturn⟩ | ⟨i, rw, hfind, hwriter, hreaders, hturn⟩
  · rw [hturn, after_of_ne hne]
    exact h
  · have htracks := h.tracks hfind
    rw [hwriter, hreaders] at htracks
    rw [hturn, after_of_find hfind]
    apply h.add hfind (h.correct.exclusive.write htracks)
    dsimp only
    rw [hreaders]
    exact htracks.write

variable [DecidableEq τ]

/-- The entry of a lock that is unlocked agrees with the holds that are left. -/
theorem tracks_unlocked {holds : List (Hold τ Nat)} {t : τ} (hex : Exclusive holds)
    (h : Tracks holds i rw.readers.toNat rw.writer) (hhas : HasHold holds t i) :
    Tracks (release holds t i) i (unlocked rw).readers.toNat (unlocked rw).writer := by
  unfold unlocked
  cases hwriter : rw.writer with
  | true =>
    rw [hwriter] at h
    exact h.release_writer hex hhas
  | false =>
    rw [hwriter] at h
    obtain ⟨hne, hrelease⟩ := h.release_reader hhas
    have hsub : (rw.readers - 1).toNat = rw.readers.toNat - 1 :=
      UInt32.toNat_sub_of_le _ _ (UInt32.le_iff_toNat_le.mpr (Nat.one_le_iff_ne_zero.mpr hne))
    rw [if_neg Bool.false_ne_true, hsub]
    exact hrelease

/-- A hold is given up. -/
theorem Invariant.unlock (h : Invariant s) {t : τ} (hheld : UnlocksHeld s (.unlock t id)) :
    Invariant (s.after id (unlock s.rwlocks id) fun i => release s.holds t i) := by
  obtain ⟨i, rw, hfind, hhas⟩ := hheld
  rw [unlock_of_find hfind, after_of_find hfind]
  apply h.set hfind h.correct.exclusive.release
  · exact tracks_unlocked h.correct.exclusive (h.tracks hfind) hhas
  · exact fun j _ _ hj ht => ht.release_of_ne hhas (Ne.symm hj)
  · exact fun hold hhold => .inl (List.mem_of_mem_eraseP hhold)

/-- Every lawful step keeps the invariant. -/
theorem Invariant.step (h : Invariant s) {event : Event τ} (hlawful : Lawful s event)
    {s' : System τ} (hstep : step s event = .ok s') : Invariant s' := by
  cases event with
  | draw t =>
    cases hstep
    exact ⟨⟨h.correct.exclusive, h.correct.tracks⟩, h.inTable⟩
  | create t =>
    unfold Pthread.step at hstep
    cases hdrawn : s.drawn.find? fun d => d.1 = t with
    | none =>
      simp only [hdrawn] at hstep
      cases hstep
      exact h
    | some d =>
      simp only [hdrawn] at hstep
      cases hstep
      exact h.create d.2 _
  | rdlock t id =>
    cases hstep
    exact h.rdlock t hlawful.2
  | wrlock t id =>
    cases hstep
    exact h.wrlock t id
  | unlock t id =>
    cases hstep
    exact h.unlock hlawful.1

/-- A thread that holds what it unlocks takes no counter below zero. -/
theorem Invariant.not_underflows (h : Invariant s) {event : Event τ}
    (hheld : UnlocksHeld s event) : ¬ Underflows s event := by
  cases event with
  | unlock t id =>
    rintro ⟨i, rw, hfind, hwriter, hzero⟩
    obtain ⟨i', rw', hfind', hhas⟩ := hheld
    rw [hfind] at hfind'
    obtain ⟨rfl, rfl⟩ := Prod.mk.inj (Option.some.inj hfind')
    have htracks := h.tracks hfind
    rw [hwriter] at htracks
    exact (htracks.release_reader hhas).1 (congrArg UInt32.toNat hzero)
  | draw t => exact id
  | create t => exact id
  | rdlock t id => exact fun h => h
  | wrlock t id => exact fun h => h

/-- In every interleaving in which a thread unlocks only what it holds, and in which no lock has
2^32 read holds, the locks are correct at all times and no counter underflows. -/
theorem correct_of_lawful (events : List (Event τ))
    (hlawful : Guarded step Lawful .init events) :
    Always step Correct .init events ∧
      Guarded step (fun s event => ¬ Underflows s event) .init events :=
  always_safe_of_guarded Invariant (fun _ h => h.correct)
    (fun _ _ h hlawful => h.not_underflows hlawful.1)
    (fun _ _ _ h hlawful hstep => h.step hlawful hstep) invariant_init hlawful

/-- Two threads and a lock: one writes, the other is turned away and reads afterwards. -/
def writeThenRead : List (Event Nat) :=
  [.draw 0, .create 0, .wrlock 0 1, .rdlock 1 1, .unlock 0 1, .rdlock 1 1, .unlock 1 1]

theorem lawful_writeThenRead : Guarded step Lawful .init writeThenRead := by
  refine ⟨⟨trivial, trivial⟩, ?_⟩
  rintro _ ⟨⟩
  refine ⟨⟨trivial, trivial⟩, ?_⟩
  rintro _ ⟨⟩
  refine ⟨⟨trivial, trivial⟩, ?_⟩
  rintro _ ⟨⟩
  refine ⟨⟨trivial, fun i rw _ =>
    Nat.lt_of_le_of_lt (Nat.succ_le_succ List.countP_le_length) (by decide)⟩, ?_⟩
  rintro _ ⟨⟩
  refine ⟨⟨⟨0, _, rfl, ⟨0, 0, .write⟩, List.mem_cons_self, rfl, rfl⟩, trivial⟩, ?_⟩
  rintro _ ⟨⟩
  refine ⟨⟨trivial, fun i rw _ =>
    Nat.lt_of_le_of_lt (Nat.succ_le_succ List.countP_le_length) (by decide)⟩, ?_⟩
  rintro _ ⟨⟩
  exact ⟨⟨⟨0, _, rfl, ⟨1, 0, .read⟩, List.mem_cons_self, rfl, rfl⟩, trivial⟩, fun _ _ => trivial⟩

theorem correct_of_lawful_writeThenRead :
    Guarded step Lawful .init writeThenRead ∧ Always step Correct .init writeThenRead ∧
      Guarded step (fun s event => ¬ Underflows s event) .init writeThenRead :=
  ⟨lawful_writeThenRead, correct_of_lawful writeThenRead lawful_writeThenRead⟩

/-! ### Several read holds of one thread -/

/-- The number of threads that hold a lock for reading. -/
def readingThreads (s : System τ) (i : Nat) : Nat :=
  ((s.holds.filter fun h => h.lock = i ∧ h.mode = .read).map (·.thread)).dedup.length

/-- One lock, that thread 0 has read-locked `n` times. -/
def readBy (n : Nat) : System Nat where
  nextRwlockId := 2
  rwlocks := [some ⟨1, UInt32.ofNat n, false⟩]
  drawn := []
  holds := List.replicate n ⟨0, 0, .read⟩

theorem step_readBy (n : Nat) : step (readBy n) (.rdlock 0 1) = .ok (readBy (n + 1)) := by
  simp [readBy, step, System.after, rdlock, find, List.replicate_succ, UInt32.ofNat_add,
    List.findIdx?_cons]

theorem run_readBy (m n : Nat) :
    run step (readBy n) (List.replicate m (.rdlock 0 1)) = .ok (readBy (n + m)) := by
  induction m generalizing n with
  | zero => rfl
  | succ m ih =>
    rw [List.replicate_succ, run_cons, step_readBy, ok_bind, ih, Nat.add_right_comm, Nat.add_assoc]

/-- A new lock is read-locked `n` times by thread 0, and then tried for writing by thread 1. -/
def readThenWrite (n : Nat) : List (Event Nat) :=
  [.draw 0, .create 0] ++ (List.replicate n (.rdlock 0 1) ++ [.wrlock 1 1])

theorem run_readThenWrite (n : Nat) :
    run step .init (readThenWrite n) = step (readBy n) (.wrlock 1 1) := by
  have hcreate : run step .init [.draw 0, .create 0] = .ok (readBy 0) := rfl
  rw [readThenWrite, run_append, hcreate, ok_bind, run_append, run_readBy, ok_bind, Nat.zero_add,
    run_cons]
  exact bind_pure _

/-- When the counter is zero the writer gets in. -/
theorem step_wrlock_readBy {n : Nat} (h : UInt32.ofNat n = 0) :
    step (readBy n) (.wrlock 1 1) = .ok { readBy n with
      rwlocks := [some ⟨1, 0, true⟩]
      holds := ⟨1, 0, .write⟩ :: List.replicate n ⟨0, 0, .read⟩ } := by
  simp [readBy, step, System.after, wrlock, find, h, List.findIdx?_cons]

/-- Two read holds of one thread count twice; after 2^32 read holds the counter is zero and
another thread gets the lock for writing. -/
theorem counts_holds_and_wraps :
    (∃ s rw, run step .init (readThenWrite 2) = .ok s ∧ s.rwlocks[0]? = some (some rw) ∧
      rw.readers = 2 ∧ readingThreads s 0 = 1) ∧
    Guarded step UnlocksHeld .init (readThenWrite (2 ^ 32)) ∧
    ∃ s, run step .init (readThenWrite (2 ^ 32)) = .ok s ∧ ⟨0, 0, .read⟩ ∈ s.holds ∧
      ⟨1, 0, .write⟩ ∈ s.holds := by
  refine ⟨⟨_, ⟨1, 2, false⟩, run_readThenWrite 2, rfl, rfl, rfl⟩, ?_, _,
    (run_readThenWrite _).trans (step_wrlock_readBy (by decide)), ?_, List.mem_cons_self⟩
  · -- Nothing is unlocked.
    apply guarded_of_forall
    intro event hevent s
    simp only [readThenWrite, List.mem_append, List.mem_cons, List.not_mem_nil, or_false,
      List.mem_replicate] at hevent
    rcases hevent with (rfl | rfl) | ⟨-, rfl⟩ | rfl
    all_goals trivial
  · exact List.mem_cons_of_mem _ (List.mem_replicate.mpr ⟨by decide, rfl⟩)

end MerlionKernel.Pthread
