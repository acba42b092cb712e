import MerlionKernel.Rust.Exec
import MerlionKernel.Theory.CubeRoot

/-!
# The time to the plateau in CUBIC

The cube root of `tcp_congestion.rs` and the constant K that is computed with it. A power of two
above the root is found by shifting, and at most 32 Newton steps lead down from it.

The power of two is at most twice the root, so each step halves the distance that is left, and the
steps end at the root long before they are 32.
-/

namespace MerlionKernel.Tcp

open Rust Theory

/-- `CUBIC_C`. -/
def cubicC : Nat := 400

/-- Shift the first guess once more, as long as its cube is below the value. -/
def guessRound (val x : Nat) : Exec (ControlFlow Nat Nat) := do
  let square ← u64 (x * x)
  let cube ← u64 (square * x)
  if cube < val then return .again (x * 2 % 2 ^ 64) else return .stop x

/-- The first power of two whose cube is not below the value. -/
def firstGuess (val : Nat) : Exec Nat := loop (guessRound val) 64 1

/-- One Newton step. The loop is left where it does not lead down. -/
def newtonRound (val x : Nat) : Exec (ControlFlow Nat Nat) := do
  let twice ← u64 (2 * x)
  let square ← u64 (x * x)
  let quotient ← div val square
  let sum ← u64 (twice + quotient)
  let x2 := sum / 3
  if x2 ≥ x then return .stop x else return .again x2

/-- At most `rounds` Newton steps. The answer is `stop` if the loop was left, and `again` if the
rounds were used up. -/
def newton (val : Nat) : Nat → Nat → Exec (ControlFlow Nat Nat)
  | 0, x => return .again x
  | rounds + 1, x => do
    match ← newtonRound val x with
    | .again x2 => newton val rounds x2
    | .stop x => return .stop x

/-- The cube root. -/
def icbrt (val : Nat) : Exec Nat :=
  if val = 0 then return 0
  else do
    let x ← firstGuess val
    match ← newton val 32 x with
    | .again x => return x % 2 ^ 32
    | .stop x => return x % 2 ^ 32

/-- The constant K for a window. -/
def cubicKCompute (wmax _cwnd : UInt32) : Exec Nat := do
  let numerator ← u64 (wmax.toNat * 300)
  let scaled ← u64 (numerator * 1000)
  let val ← div scaled cubicC
  icbrt val

/-! ### The first guess -/

/-- The guess is a power of two, and half of it is below the root. -/
structure Guess (val x : Nat) : Prop where
  pow : ∃ k ≤ 15, x = 2 ^ k
  half : x = 1 ∨ ∃ y, x = 2 * y ∧ y ^ 3 < val

theorem Guess.le {val x : Nat} (h : Guess val x) : x ≤ 2 ^ 15 := by
  obtain ⟨k, hk, rfl⟩ := h.pow
  exact Nat.pow_le_pow_right (by decide) hk

theorem Guess.double {val x : Nat} (hval : val ≤ 2 ^ 42) (h : Guess val x) (hlt : x ^ 3 < val) :
    Guess val (x * 2) := by
  refine ⟨?_, .inr ⟨x, Nat.mul_comm x 2, hlt⟩⟩
  obtain ⟨k, -, rfl⟩ := h.pow
  have hk : (2 ^ k) ^ 3 < (2 ^ 14) ^ 3 := hlt.trans_le hval
  have hk := (Nat.pow_lt_pow_iff_right (by decide)).mp (lt_of_pow_lt_pow_left₀ 3 (by decide) hk)
  exact ⟨k + 1, by omega, (pow_succ 2 k).symm⟩

theorem guessRound_eq {val x : Nat} (hx : x ≤ 2 ^ 15) :
    guessRound val x = .ok (if x ^ 3 < val then .again (x * 2) else .stop x) := by
  have hsquare : x * x ≤ 2 ^ 15 * 2 ^ 15 := Nat.mul_le_mul hx hx
  have hcube : x * x * x ≤ 2 ^ 15 * 2 ^ 15 * 2 ^ 15 := Nat.mul_le_mul hsquare hx
  rw [guessRound, u64_eq_ok (by omega), ok_bind, u64_eq_ok (by omega), ok_bind,
    show x * x * x = x ^ 3 by ring, Nat.mod_eq_of_lt (by omega)]
  split_ifs <;> rfl

theorem firstGuess_returns {val : Nat} (hval : val ≤ 2 ^ 42) :
    Returns (firstGuess val) fun x => Guess val x ∧ val ≤ x ^ 3 := by
  refine loop_returns (Guess val) (fun x => 15 - x.log2) (fun x hx => ?_)
    ⟨⟨0, by decide, rfl⟩, .inl rfl⟩ (by decide)
  rw [guessRound_eq hx.le]
  by_cases hlt : x ^ 3 < val
  · rw [if_pos hlt]
    have hdouble := hx.double hval hlt
    refine .ok ⟨hdouble, ?_⟩
    obtain ⟨k, hk, rfl⟩ := hx.pow
    obtain ⟨k', hk', hpow⟩ := hdouble.pow
    rw [← pow_succ] at hpow ⊢
    obtain rfl := Nat.pow_right_injective (Nat.le_refl 2) hpow
    simp only [Nat.log2_two_pow]
    omega
  · rw [if_neg hlt]
    exact .ok ⟨hx, Nat.le_of_not_lt hlt⟩

/-! ### Newton's steps -/

theorem newtonRound_eq {val x : Nat} (hval : val ≤ 2 ^ 42) (hx : 0 < x) (hx' : x ≤ 2 ^ 15) :
    newtonRound val x =
      .ok (if x ≤ cbrtStep val x then .stop x else .again (cbrtStep val x)) := by
  have hsquare : x * x ≤ 2 ^ 15 * 2 ^ 15 := Nat.mul_le_mul hx' hx'
  have hquot : val / (x * x) ≤ val := Nat.div_le_self _ _
  rw [newtonRound, u64_eq_ok (by omega), ok_bind, u64_eq_ok (by omega), ok_bind,
    div_eq_ok (Nat.mul_pos hx hx).ne', ok_bind, u64_eq_ok (by omega), ok_bind]
  unfold cbrtStep
  by_cases hstop : x ≤ (2 * x + val / (x * x)) / 3
  · rw [if_pos hstop, if_pos hstop]
    rfl
  · rw [if_neg hstop, if_neg hstop]
    rfl

/-- A round at the root leaves the loop. -/
theorem newton_root {val r : Nat} (hval : val ≤ 2 ^ 42) (h : IsCbrt val r) (hr : 0 < r)
    (hr' : r ≤ 2 ^ 15) (rounds : Nat) : newton val (rounds + 1) r = .ok (.stop r) := by
  rw [newton, newtonRound_eq hval hr hr', ok_bind, if_pos (h.le_step hr)]
  rfl

/-- A round elsewhere leads to the next number. -/
theorem newton_again {val r x : Nat} (hval : val ≤ 2 ^ 42) (h : IsCbrt val r) (hlo : r < x)
    (hx : x ≤ 2 ^ 15) (rounds : Nat) :
    newton val (rounds + 1) x = newton val rounds (cbrtStep val x) ∧ cbrtStep val x < x := by
  have hpos : 0 < x := by omega
  have hdown : ¬ x ≤ cbrtStep val x := fun hstop => hlo.ne' (h.eq_of_le_step hpos hlo.le hstop)
  rw [newton, newtonRound_eq hval hpos hx, ok_bind, if_neg hdown]
  exact ⟨rfl, Nat.lt_of_not_le hdown⟩

/-- From a number that is above the root by at most `2 ^ n`, the loop is left at the root within
`n + 2` rounds. -/
theorem newton_eq_stop {val r : Nat} (hval : val ≤ 2 ^ 42) (h : IsCbrt val r) (hr : 0 < r)
    (n : Nat) {x : Nat} (hlo : r ≤ x) (hhi : x ≤ 2 * (r + 1)) (hx : x ≤ 2 ^ 15)
    (hdist : x ≤ r + 2 ^ n) : newton val (n + 2) x = .ok (.stop r) := by
  induction n generalizing x with
  | zero =>
    rcases hlo.eq_or_lt with rfl | hlt
    · exact newton_root hval h hr hx 1
    · obtain ⟨hnext, hdown⟩ := newton_again hval h hlt hx 1
      have hroot : cbrtStep val x = r :=
        Nat.le_antisymm (by omega) (h.le_step (by omega))
      rw [hnext, hroot]
      exact newton_root hval h hr (by omega) 0
  | succ n ih =>
    rcases hlo.eq_or_lt with rfl | hlt
    · exact newton_root hval h hr hx (n + 2)
    · obtain ⟨hnext, hdown⟩ := newton_again hval h hlt hx (n + 2)
      have hhalf := h.step_lt hlt hhi
      rw [hnext]
      rw [pow_succ] at hdist
      exact ih (h.le_step (by omega)) (by omega) (by omega) (by omega)

/-! ### The result -/

/-- The value whose cube root is K, over the integers. -/
def scaledWindow (wmax : UInt32) : Nat := wmax.toNat * 300 * 1000 / 400

/-- For every window the constant is the exact cube root, rounded down, and no product overflows.
The Newton steps end by themselves, not because there were 32. -/
theorem cubicKCompute_exact (wmax cwnd : UInt32) :
    ∃ k, cubicKCompute wmax cwnd = .ok k ∧
      k ^ 3 ≤ scaledWindow wmax ∧ scaledWindow wmax < (k + 1) ^ 3 ∧
      (scaledWindow wmax ≠ 0 → ∃ x, firstGuess (scaledWindow wmax) = .ok x ∧
        newton (scaledWindow wmax) 32 x = .ok (.stop k)) := by
  have hw : wmax.toNat < 2 ^ 32 := wmax.toNat_lt
  have hval : scaledWindow wmax ≤ 2 ^ 42 := by
    unfold scaledWindow
    omega
  have hcompute : cubicKCompute wmax cwnd = icbrt (scaledWindow wmax) := by
    rw [cubicKCompute, u64_eq_ok (by omega), ok_bind, u64_eq_ok (by omega), ok_bind,
      div_eq_ok (by decide), ok_bind]
    rfl
  rw [hcompute]
  generalize scaledWindow wmax = val at hval ⊢
  by_cases hzero : val = 0
  · subst hzero
    exact ⟨0, rfl, by decide, by decide, fun h => absurd rfl h⟩
  · obtain ⟨r, h⟩ := exists_isCbrt val
    obtain ⟨x, hguess, hx, hcube⟩ := firstGuess_returns hval
    have hr : 0 < r := by
      refine Nat.pos_of_ne_zero fun hr => ?_
      have := h.lt
      rw [hr] at this
      omega
    have hlo : r ≤ x := h.le_of_le_cube hcube
    have hhi : x ≤ 2 * (r + 1) := by
      rcases hx.half with rfl | ⟨y, rfl, hy⟩
      · omega
      · have := h.le_of_cube_le hy.le
        omega
    have hnewton := newton_eq_stop hval h hr 30 hlo hhi hx.le (by have := hx.le; omega)
    refine ⟨r, ?_, h.le, h.lt, fun _ => ⟨x, hguess, hnewton⟩⟩
    have hr32 : r % 2 ^ 32 = r := Nat.mod_eq_of_lt (by have := hx.le; omega)
    rw [icbrt, if_neg hzero, hguess, ok_bind, hnewton, ok_bind]
    exact congrArg Except.ok hr32

end MerlionKernel.Tcp
