import Mathlib.Tactic.Linarith
import Mathlib.Tactic.Ring

/-!
# Integer cube roots by Newton's method

The truncated Newton step for the cube root of a natural number. From any positive number a step
leads to the root or above it. From above the root it comes closer: the distance to the number
after the root is more than halved, as long as this is at most twice as large. A number that is
not lowered is the root.
-/

namespace MerlionKernel.Theory

/-- `r` is the cube root of `v`, rounded down. -/
structure IsCbrt (v r : ℕ) : Prop where
  le : r ^ 3 ≤ v
  lt : v < (r + 1) ^ 3

/-- One step towards the cube root. -/
def cbrtStep (v x : ℕ) : ℕ := (2 * x + v / (x * x)) / 3

variable {v r x : ℕ}

theorem exists_isCbrt (v : ℕ) : ∃ r, IsCbrt v r := by
  induction v with
  | zero => exact ⟨0, Nat.le_refl _, by decide⟩
  | succ v ih =>
    obtain ⟨r, h⟩ := ih
    rcases Nat.lt_or_ge (v + 1) ((r + 1) ^ 3) with hlt | hge
    · exact ⟨r, h.le.trans (Nat.le_succ v), hlt⟩
    · refine ⟨r + 1, hge, (Nat.succ_le_of_lt h.lt).trans_lt ?_⟩
      exact Nat.pow_lt_pow_left (Nat.lt_succ_self _) (by decide)

theorem IsCbrt.le_of_cube_le (h : IsCbrt v r) (hx : x ^ 3 ≤ v) : x ≤ r := by
  have hlt : x ^ 3 < (r + 1) ^ 3 := hx.trans_lt h.lt
  exact Nat.lt_succ_iff.mp (lt_of_pow_lt_pow_left₀ 3 (Nat.zero_le _) hlt)

theorem IsCbrt.le_of_le_cube (h : IsCbrt v r) (hx : v ≤ x ^ 3) : r ≤ x :=
  le_of_pow_le_pow_left₀ (by decide) (Nat.zero_le _) (h.le.trans hx)

/-- A step does not fall below the root. -/
theorem IsCbrt.le_step (h : IsCbrt v r) (hx : 0 < x) : r ≤ cbrtStep v x := by
  rw [cbrtStep, Nat.le_div_iff_mul_le (by decide)]
  rcases Nat.le_total (r * 3) (2 * x) with hle | hle
  · exact hle.trans (Nat.le_add_right _ _)
  · -- The mean of `x`, `x` and `r³ / x²` is at least `r`.
    have hmean : (r * 3 - 2 * x) * (x * x) ≤ r ^ 3 := by
      zify [hle]
      nlinarith [mul_nonneg (sq_nonneg ((r : ℤ) - x)) (by positivity : (0 : ℤ) ≤ r + 2 * x)]
    have hquot : r * 3 - 2 * x ≤ v / (x * x) :=
      (Nat.le_div_iff_mul_le (Nat.mul_pos hx hx)).mpr (hmean.trans h.le)
    omega

/-- Where a step does not lead down, the root is reached. -/
theorem IsCbrt.eq_of_le_step (h : IsCbrt v r) (hx : 0 < x) (hr : r ≤ x) (hstep : x ≤ cbrtStep v x) :
    x = r := by
  rw [cbrtStep, Nat.le_div_iff_mul_le (by decide)] at hstep
  have hquot : x ≤ v / (x * x) := by omega
  rw [Nat.le_div_iff_mul_le (Nat.mul_pos hx hx)] at hquot
  exact Nat.le_antisymm (h.le_of_cube_le (by rwa [pow_succ', sq])) hr

/-- A step more than halves the distance to the number after the root. -/
theorem IsCbrt.step_lt (h : IsCbrt v r) (hlo : r + 1 ≤ x) (hhi : x ≤ 2 * (r + 1)) :
    2 * cbrtStep v x < x + (r + 1) := by
  have hx : 0 < x := by omega
  have hstep : cbrtStep v x * 3 ≤ 2 * x + v / (x * x) := Nat.div_mul_le_self _ 3
  have hquot : v / (x * x) * (x * x) ≤ v := Nat.div_mul_le_self _ _
  have hlt := h.lt
  generalize r + 1 = s at hlo hhi hlt ⊢
  generalize cbrtStep v x = y at hstep ⊢
  generalize v / (x * x) = q at hstep hquot
  have hsq : 0 < x * x := Nat.mul_pos hx hx
  have hcube : x * x * x + 2 * s ^ 3 ≤ 3 * s * (x * x) := by
    zify at hlo hhi ⊢
    have hfactor : (0 : ℤ) ≤ (x - s) * (2 * s * x + 2 * s ^ 2 - x ^ 2) := by
      refine mul_nonneg (by linarith) ?_
      nlinarith
    nlinarith
  have hmul : y * 3 * (x * x) ≤ (2 * x + q) * (x * x) := Nat.mul_le_mul_right _ hstep
  have htotal : 2 * y * 3 * (x * x) < (x + s) * 3 * (x * x) := by nlinarith
  have := Nat.lt_of_mul_lt_mul_right htotal
  omega

end MerlionKernel.Theory
