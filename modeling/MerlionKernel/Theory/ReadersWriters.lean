import Mathlib.Data.List.Basic

/-!
# Readers and writers

Threads hold locks for reading or for writing. The holds exclude each other when any two holds of
one lock are both for reading. A lock that counts its read holds and flags its write hold keeps the
holds exclusive by admitting a reader only when the flag is clear and a writer only when the count
is zero as well. It does not record who holds it, so a release decides by the flag which kind of
hold is given up; while the holds exclude each other, that is the right one.
-/

namespace MerlionKernel.Theory

universe u v

/-- What a lock is held for. -/
inductive Mode
  | read
  | write
  deriving DecidableEq

/-- A lock held by a thread. -/
structure Hold (τ : Type u) (κ : Type v) where
  thread : τ
  lock : κ
  mode : Mode

variable {τ : Type u} {κ : Type v} {holds : List (Hold τ κ)} {t : τ} {k : κ}

/-- Any two holds of one lock are both for reading. -/
def Exclusive (holds : List (Hold τ κ)) : Prop :=
  holds.Pairwise fun h h' => h.lock = h'.lock → h.mode = .read ∧ h'.mode = .read

/-- The thread holds the lock. -/
def HasHold (holds : List (Hold τ κ)) (t : τ) (k : κ) : Prop :=
  ∃ h ∈ holds, h.thread = t ∧ h.lock = k

/-- A hold and the other holds of its lock. -/
theorem Exclusive.others {l r : List (Hold τ κ)} {hold : Hold τ κ}
    (hex : Exclusive (l ++ hold :: r)) {other : Hold τ κ} (hother : other ∈ l ++ r)
    (hlock : other.lock = hold.lock) : hold.mode = .read ∧ other.mode = .read := by
  obtain ⟨-, hright, hacross⟩ := List.pairwise_append.mp hex
  rcases List.mem_append.mp hother with hl | hr
  · exact (hacross other hl hold List.mem_cons_self hlock).symm
  · exact (List.pairwise_cons.mp hright).1 other hr hlock.symm

variable [DecidableEq κ]

/-- The number of holds of a lock in a mode. -/
def countHolds (holds : List (Hold τ κ)) (k : κ) (mode : Mode) : ℕ :=
  holds.countP fun h => h.lock = k ∧ h.mode = mode

/-- The count and the flag of a lock agree with its holds. -/
structure Tracks (holds : List (Hold τ κ)) (k : κ) (readers : ℕ) (writer : Bool) : Prop where
  readers_eq : readers = countHolds holds k .read
  writer_iff : writer = true ↔ countHolds holds k .write ≠ 0

theorem countHolds_eq_zero {mode : Mode} :
    countHolds holds k mode = 0 ↔ ∀ h ∈ holds, h.lock = k → h.mode ≠ mode := by
  simp [countHolds, List.countP_eq_zero]

@[simp] theorem countHolds_cons (h : Hold τ κ) (holds : List (Hold τ κ)) (k : κ) (mode : Mode) :
    countHolds (h :: holds) k mode =
      countHolds holds k mode + if h.lock = k ∧ h.mode = mode then 1 else 0 := by
  simp [countHolds, List.countP_cons]

@[simp] theorem countHolds_append (holds holds' : List (Hold τ κ)) (k : κ) (mode : Mode) :
    countHolds (holds ++ holds') k mode = countHolds holds k mode + countHolds holds' k mode :=
  List.countP_append

/-- A lock without holds. -/
theorem tracks_of_forall_ne (h : ∀ hold ∈ holds, hold.lock ≠ k) : Tracks holds k 0 false := by
  have hnone : ∀ mode, countHolds holds k mode = 0 :=
    fun mode => countHolds_eq_zero.mpr fun hold hmem heq => absurd heq (h hold hmem)
  exact ⟨(hnone .read).symm, by simp [hnone]⟩

/-! ### Taking a lock -/

/-- A new hold of one lock leaves the others as they are. -/
theorem Tracks.cons_of_ne {readers : ℕ} {writer : Bool} (h : Tracks holds k readers writer)
    {hold : Hold τ κ} (hne : hold.lock ≠ k) : Tracks (hold :: holds) k readers writer :=
  ⟨by simpa [hne] using h.readers_eq, by simpa [hne] using h.writer_iff⟩

theorem Tracks.no_writer {readers : ℕ} (h : Tracks holds k readers false) :
    ∀ hold ∈ holds, hold.lock = k → hold.mode = .read := by
  have hzero : countHolds holds k .write = 0 := by
    by_contra hne
    exact absurd (h.writer_iff.mpr hne) Bool.noConfusion
  intro hold hmem hlock
  have hmode := countHolds_eq_zero.mp hzero hold hmem hlock
  cases hcase : hold.mode with
  | read => rfl
  | write => exact absurd hcase hmode

/-- A reader is admitted while the flag is clear. -/
theorem Exclusive.read (hex : Exclusive holds) {readers : ℕ} (h : Tracks holds k readers false) :
    Exclusive (⟨t, k, .read⟩ :: holds) :=
  List.pairwise_cons.mpr ⟨fun hold hmem hlock => ⟨rfl, h.no_writer hold hmem hlock.symm⟩, hex⟩

theorem Tracks.read {readers : ℕ} (h : Tracks holds k readers false) :
    Tracks (⟨t, k, .read⟩ :: holds) k (readers + 1) false :=
  ⟨by simp [h.readers_eq], by simpa using h.writer_iff⟩

/-- A writer is admitted while the flag is clear and the count is zero. -/
theorem Exclusive.write (hex : Exclusive holds) (h : Tracks holds k 0 false) :
    Exclusive (⟨t, k, .write⟩ :: holds) := by
  refine List.pairwise_cons.mpr ⟨fun hold hmem hlock => ?_, hex⟩
  have hread := h.no_writer hold hmem hlock.symm
  exact absurd hread (countHolds_eq_zero.mp h.readers_eq.symm hold hmem hlock.symm)

theorem Tracks.write (h : Tracks holds k 0 false) : Tracks (⟨t, k, .write⟩ :: holds) k 0 true :=
  ⟨by simpa using h.readers_eq, by simp⟩

/-! ### Giving a lock up -/

variable [DecidableEq τ]

/-- The holds when a thread has given up one hold of a lock. -/
def release (holds : List (Hold τ κ)) (t : τ) (k : κ) : List (Hold τ κ) :=
  holds.eraseP fun h => h.thread = t ∧ h.lock = k

/-- A hold that is given up, between the others. -/
theorem exists_release (h : HasHold holds t k) : ∃ l hold r, holds = l ++ hold :: r ∧
    hold.thread = t ∧ hold.lock = k ∧ release holds t k = l ++ r := by
  obtain ⟨hold, hmem, hthread, hlock⟩ := h
  obtain ⟨hold, l, r, -, hmatch, rfl, herase⟩ := List.exists_of_eraseP
    (p := fun h => decide (h.thread = t ∧ h.lock = k)) hmem (by simp [hthread, hlock])
  obtain ⟨hthread, hlock⟩ := of_decide_eq_true hmatch
  exact ⟨l, hold, r, rfl, hthread, hlock, herase⟩

theorem Exclusive.release (hex : Exclusive holds) : Exclusive (release holds t k) :=
  List.Pairwise.sublist List.eraseP_sublist hex

/-- Giving up a hold of one lock leaves the others as they are. -/
theorem Tracks.release_of_ne {k' : κ} {readers : ℕ} {writer : Bool}
    (h : Tracks holds k' readers writer) (hhas : HasHold holds t k) (hne : k ≠ k') :
    Tracks (release holds t k) k' readers writer := by
  obtain ⟨l, hold, r, rfl, -, rfl, hrelease⟩ := exists_release hhas
  rw [hrelease]
  exact ⟨by simpa [hne] using h.readers_eq, by simpa [hne] using h.writer_iff⟩

/-- When the flag is set, the hold that is given up is the one for writing. -/
theorem Tracks.release_writer (hex : Exclusive holds) {readers : ℕ}
    (h : Tracks holds k readers true) (hhas : HasHold holds t k) :
    Tracks (release holds t k) k readers false := by
  obtain ⟨l, hold, r, rfl, -, rfl, hrelease⟩ := exists_release hhas
  have hwriter := h.writer_iff.mp rfl
  cases hmode : hold.mode with
  | read =>
    -- Then all holds of the lock are for reading, and the flag would be clear.
    refine absurd (countHolds_eq_zero.mpr fun other hother hlock => ?_) hwriter
    rcases List.mem_cons.mp (List.perm_middle.mem_iff.mp hother) with rfl | hother
    · simp [hmode]
    · simp [(hex.others hother hlock).2]
  | write =>
    have hnone : countHolds (l ++ r) hold.lock .write = 0 := by
      refine countHolds_eq_zero.mpr fun other hother hlock => ?_
      simp [(hex.others hother hlock).2]
    rw [hrelease]
    exact ⟨by simpa [hmode] using h.readers_eq, by simp [hnone]⟩

/-- When it is clear, the hold that is given up is one for reading. -/
theorem Tracks.release_reader {readers : ℕ} (h : Tracks holds k readers false)
    (hhas : HasHold holds t k) :
    readers ≠ 0 ∧ Tracks (release holds t k) k (readers - 1) false := by
  obtain ⟨l, hold, r, rfl, -, rfl, hrelease⟩ := exists_release hhas
  have hmode := h.no_writer hold (List.mem_append_right l List.mem_cons_self) rfl
  have hcount : readers = countHolds (l ++ r) hold.lock .read + 1 := by
    simpa [hmode, Nat.add_assoc] using h.readers_eq
  rw [hrelease, hcount]
  exact ⟨Nat.succ_ne_zero _, rfl, by simpa [hmode] using h.writer_iff⟩

end MerlionKernel.Theory
