import Mathlib.Algebra.Order.Field.Rat
import Mathlib.Tactic.FieldSimp
import Mathlib.Tactic.Linarith
import MerlionKernel.RtSched.Model

/-!
# The schedulability test

`schedulability_test` of `rt_sched.rs` compares the utilisation of the rate monotonic tasks with
the bound of Liu and Layland, both in thousandths. Every task's share is rounded down before the
shares are added, so the sum the test looks at is short of the utilisation by the fractions that
were dropped. The test passes a task set above the bound exactly if these fractions make up for
the excess.
-/

namespace MerlionKernel.RtSched

open Rust

/-- `bound_scaled`: the bound for `n` tasks, in thousandths. -/
def boundScaled : Nat → Nat
  | 1 => 1000
  | 2 => 828
  | 3 => 780
  | 4 => 757
  | 5 => 743
  | _ => 693

/-- The tasks the test is about. -/
def rmTasks (inner : RtSchedInner) : List RtTask :=
  inner.tasks.filter fun t => t.policy = .rateMonotonic ∧ t.periodTicks > 0

/-- The loop that adds up `u_scaled`. -/
def addShares (tasks : List RtTask) (u : Nat) : Exec Nat :=
  tasks.foldlM (fun u t => do
    let product ← u64 (t.wcetTicks * 1000)
    let share ← div product t.periodTicks
    u64 (u + share)) u

/-- The text of the analysis. -/
def report (n u bound : Nat) : String :=
  s!"RM Schedulability Test:\n  Tasks: {n}\n  Total utilisation: {u / 10}.{u % 10}%\n" ++
  s!"  Bound (n={n}): {bound / 10}.{bound % 10}%\n" ++
  if u ≤ bound then "  Result: SCHEDULABLE\n" else "  Result: NOT GUARANTEED\n"

/-- `schedulability_test`. -/
def schedulabilityTest (sched : Option RtSchedInner) : Exec String :=
  match sched with
  | none => return "(rt_sched not initialised)\n"
  | some inner =>
    let tasks := rmTasks inner
    if tasks.isEmpty then return "No Rate Monotonic tasks to analyse.\n"
    else do
      let u ← addShares tasks 0
      return report tasks.length u (boundScaled tasks.length)

/-- The text says that the tasks can be scheduled. -/
def Passes (text : String) : Prop := "  Result: SCHEDULABLE\n".toList <:+ text.toList

/-- The exact utilisation. -/
def utilisation (tasks : List RtTask) : ℚ :=
  (tasks.map fun t => (t.wcetTicks : ℚ) / t.periodTicks).sum

/-- The fractions of thousandths that rounding drops. -/
def lost (tasks : List RtTask) : ℚ :=
  (tasks.map fun t => ((t.wcetTicks * 1000 % t.periodTicks : ℕ) : ℚ) / t.periodTicks).sum

/-- The shares in thousandths, rounded down. -/
def shares (tasks : List RtTask) : Nat :=
  (tasks.map fun t => t.wcetTicks * 1000 / t.periodTicks).sum

theorem passes_report_iff (n u bound : Nat) : Passes (report n u bound) ↔ u ≤ bound := by
  unfold Passes report
  rw [String.toList_append]
  by_cases h : u ≤ bound
  · rw [if_pos h]
    exact iff_of_true (List.suffix_append _ _) h
  · rw [if_neg h]
    refine iff_of_false (fun hpass => ?_) h
    rcases List.suffix_or_suffix_of_suffix hpass (List.suffix_append _ _) with hsuffix | hsuffix
    · exact absurd hsuffix (by decide)
    · exact absurd hsuffix (by decide)

theorem addShares_eq_ok_iff {tasks : List RtTask} (hperiod : ∀ t ∈ tasks, 0 < t.periodTicks)
    {u v : Nat} (hu : u < 2 ^ 64) :
    addShares tasks u = .ok v ↔
      (∀ t ∈ tasks, t.wcetTicks * 1000 < 2 ^ 64) ∧ u + shares tasks < 2 ^ 64 ∧
        v = u + shares tasks := by
  induction tasks generalizing u with
  | nil =>
    refine ⟨fun h => ⟨by simp, hu, ?_⟩, fun h => congrArg _ h.2.2.symm⟩
    cases h
    rfl
  | cons t tasks ih =>
    obtain ⟨ht, htasks⟩ := List.forall_mem_cons.mp hperiod
    have hshares : shares (t :: tasks) = t.wcetTicks * 1000 / t.periodTicks + shares tasks := rfl
    rw [addShares, List.foldlM_cons, List.forall_mem_cons, hshares, ← Nat.add_assoc]
    by_cases hproduct : t.wcetTicks * 1000 < 2 ^ 64
    · rw [u64_eq_ok hproduct, ok_bind, div_eq_ok (Nat.pos_iff_ne_zero.mp ht), ok_bind]
      by_cases hsum : u + t.wcetTicks * 1000 / t.periodTicks < 2 ^ 64
      · rw [u64_eq_ok hsum, ok_bind, and_iff_right hproduct]
        exact ih htasks hsum
      · rw [u64_eq_error (not_lt.mp hsum), error_bind]
        refine iff_of_false nofun fun h => hsum ?_
        exact lt_of_le_of_lt (Nat.le_add_right _ _) h.2.1
    · rw [u64_eq_error (not_lt.mp hproduct), error_bind, error_bind]
      exact iff_of_false nofun fun h => hproduct h.1.1

/-- The utilisation in thousandths is what the test adds up and what it drops. -/
theorem utilisation_eq {tasks : List RtTask} (hperiod : ∀ t ∈ tasks, 0 < t.periodTicks) :
    utilisation tasks * 1000 = shares tasks + lost tasks := by
  induction tasks with
  | nil => simp [utilisation, shares, lost]
  | cons t tasks ih =>
    obtain ⟨ht, htasks⟩ := List.forall_mem_cons.mp hperiod
    have hne : (t.periodTicks : ℚ) ≠ 0 := Nat.cast_ne_zero.mpr ht.ne'
    have hdiv : ((t.wcetTicks * 1000 : ℕ) : ℚ) =
        t.periodTicks * (t.wcetTicks * 1000 / t.periodTicks : ℕ) +
          (t.wcetTicks * 1000 % t.periodTicks : ℕ) := by
      rw [← Nat.cast_mul, ← Nat.cast_add, Nat.div_add_mod]
    have hshare : (t.wcetTicks : ℚ) / t.periodTicks * 1000 =
        (t.wcetTicks * 1000 / t.periodTicks : ℕ) +
          ((t.wcetTicks * 1000 % t.periodTicks : ℕ) : ℚ) / t.periodTicks := by
      rw [div_mul_eq_mul_div, div_eq_iff hne, add_mul, div_mul_cancel₀ _ hne, mul_comm (_ : ℚ)]
      push_cast at hdiv ⊢
      linarith
    have hu : utilisation (t :: tasks) = t.wcetTicks / t.periodTicks + utilisation tasks := rfl
    have hs : shares (t :: tasks) = t.wcetTicks * 1000 / t.periodTicks + shares tasks := rfl
    have hl : lost (t :: tasks) =
        ((t.wcetTicks * 1000 % t.periodTicks : ℕ) : ℚ) / t.periodTicks + lost tasks := rfl
    rw [hu, hs, hl, add_mul, hshare, ih htasks, Nat.cast_add]
    linarith

/-- The test returns, and passes no task set above the bound, exactly if nothing overflows and the
utilisation is either at most the bound or above it by more than what rounding drops. -/
theorem schedulabilityTest_sound_iff (inner : RtSchedInner) :
    (∃ text, schedulabilityTest (some inner) = .ok text ∧ (Passes text →
        utilisation (rmTasks inner) ≤ (boundScaled (rmTasks inner).length : ℚ) / 1000)) ↔
      (∀ t ∈ rmTasks inner, t.wcetTicks * 1000 < 2 ^ 64) ∧ shares (rmTasks inner) < 2 ^ 64 ∧
      (utilisation (rmTasks inner) * 1000 ≤ boundScaled (rmTasks inner).length ∨
        boundScaled (rmTasks inner).length + lost (rmTasks inner) <
          utilisation (rmTasks inner) * 1000) := by
  have hperiod : ∀ t ∈ rmTasks inner, 0 < t.periodTicks := by
    intro t ht
    exact (of_decide_eq_true (List.mem_filter.mp ht).2).2
  have hutil := utilisation_eq hperiod
  unfold schedulabilityTest
  dsimp only
  generalize rmTasks inner = tasks at hperiod hutil ⊢
  by_cases hempty : tasks.isEmpty = true
  · rw [if_pos hempty]
    obtain rfl := List.isEmpty_iff.mp hempty
    refine iff_of_true ⟨_, rfl, fun hpass => absurd hpass (by unfold Passes; decide)⟩ ?_
    simp [shares, utilisation]
  · rw [if_neg hempty]
    have hadd := fun v => addShares_eq_ok_iff hperiod (u := 0) (v := v) (by decide)
    simp only [Nat.zero_add] at hadd
    have hle : utilisation tasks ≤ (boundScaled tasks.length : ℚ) / 1000 ↔
        utilisation tasks * 1000 ≤ boundScaled tasks.length := le_div_iff₀ (by norm_num)
    have hpass : shares tasks ≤ boundScaled tasks.length ↔
        ¬ (boundScaled tasks.length + lost tasks < utilisation tasks * 1000) := by
      rw [hutil, not_lt, add_le_add_iff_right, Nat.cast_le]
    rw [hle]
    constructor
    · rintro ⟨text, htext, hsound⟩
      obtain ⟨u, hu, htext⟩ := bind_eq_ok_iff.mp htext
      cases htext
      obtain ⟨hproducts, hsum, rfl⟩ := (hadd u).mp hu
      rw [passes_report_iff, hpass] at hsound
      exact ⟨hproducts, hsum, (or_iff_not_imp_right).mpr hsound⟩
    · rintro ⟨hproducts, hsum, hcond⟩
      rw [(hadd _).mpr ⟨hproducts, hsum, rfl⟩]
      refine ⟨_, rfl, ?_⟩
      rw [passes_report_iff, hpass]
      exact (or_iff_not_imp_right).mp hcond

/-- Two tasks that each take 4149 of every 10000 ticks. -/
def roundedPair : RtSchedInner :=
  let task : RtTask :=
    { id := 1, name := "a", policy := .rateMonotonic, priority := 1, periodTicks := 10000
      deadlineTicks := 10000, wcetTicks := 4149, state := .ready, createdTick := 0, lastRun := 0
      missCount := 0, runCount := 0 }
  { RtSchedInner.new with tasks := [task, { task with id := 2 }] }

/-- The pair is passed, although it uses 0.8298 of the time and the bound is 0.828. -/
theorem schedulabilityTest_passes_roundedPair :
    schedulabilityTest (some roundedPair) = .ok (report 2 828 828) ∧ Passes (report 2 828 828) ∧
      (boundScaled 2 : ℚ) / 1000 < utilisation (rmTasks roundedPair) := by
  refine ⟨by decide, (passes_report_iff _ _ _).mpr le_rfl, ?_⟩
  have htasks : rmTasks roundedPair = roundedPair.tasks := by decide
  rw [htasks]
  norm_num [utilisation, roundedPair, boundScaled]

end MerlionKernel.RtSched
