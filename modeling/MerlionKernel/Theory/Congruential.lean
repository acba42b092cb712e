import Mathlib.Algebra.Order.Group.Unbundled.Int
import Mathlib.Algebra.Order.Ring.Abs
import Mathlib.Data.Int.ModEq
import Mathlib.Tactic.Ring

/-!
# Congruential generators of which the high digits are seen

A generator multiplies its state by `a` and adds a constant, modulo `m`; of each state only the
quotient by some `w` is seen. When two generators of this kind show the same, their states differ
by less than `w`, and the differences of successive states are multiplied by `a`.

A polynomial that has `a` as a root modulo `m` is a relation between successive differences, modulo
`m`. If its coefficients are small the relation holds exactly, because both sides are too small to
differ by a multiple of `m`. Enough relations leave no differences but 0.
-/

namespace MerlionKernel.Theory

/-- The value of the polynomial with the given coefficients, the constant one first. -/
def polyEval (a : ℤ) : List ℤ → ℤ
  | [] => 0
  | c :: cs => c + a * polyEval a cs

/-- The combination of the first members of a sequence with the given coefficients. -/
def combine (e : ℕ → ℤ) : List ℤ → ℤ
  | [] => 0
  | c :: cs => c * e 0 + combine (fun j => e (j + 1)) cs

section Relations

variable {a m w : ℤ} {e : ℕ → ℤ}

/-- In a geometric sequence modulo `m` a combination is the value of the polynomial. -/
theorem combine_modEq (hstep : ∀ j, e (j + 1) ≡ a * e j [ZMOD m]) (cs : List ℤ) :
    combine e cs ≡ polyEval a cs * e 0 [ZMOD m] := by
  induction cs generalizing e with
  | nil =>
    rw [combine, polyEval, zero_mul]
  | cons c cs ih =>
    have htail : combine (fun j => e (j + 1)) cs ≡ polyEval a cs * (a * e 0) [ZMOD m] :=
      (ih fun j => hstep (j + 1)).trans ((hstep 0).mul_left _)
    have hsum : combine e (c :: cs) ≡ c * e 0 + polyEval a cs * (a * e 0) [ZMOD m] :=
      htail.add_left _
    rwa [show c * e 0 + polyEval a cs * (a * e 0) = polyEval a (c :: cs) * e 0 by
      rw [polyEval]; ring] at hsum

theorem abs_combine_le {cs : List ℤ} (hsmall : ∀ j < cs.length, |e j| ≤ w) :
    |combine e cs| ≤ (cs.map abs).sum * w := by
  induction cs generalizing e with
  | nil => simp [combine]
  | cons c cs ih =>
    have hhead : |c * e 0| ≤ |c| * w := by
      rw [abs_mul]
      exact mul_le_mul_of_nonneg_left (hsmall 0 (Nat.succ_pos _)) (abs_nonneg c)
    have htail : |combine (fun j => e (j + 1)) cs| ≤ (cs.map abs).sum * w :=
      ih fun j hj => hsmall (j + 1) (Nat.succ_lt_succ hj)
    calc |combine e (c :: cs)|
        ≤ |c * e 0| + |combine (fun j => e (j + 1)) cs| := abs_add_le _ _
      _ ≤ |c| * w + (cs.map abs).sum * w := add_le_add hhead htail
      _ = ((c :: cs).map abs).sum * w := by rw [List.map_cons, List.sum_cons, add_mul]

/-- A relation with small coefficients between small numbers holds exactly. -/
theorem combine_eq_zero (hstep : ∀ j, e (j + 1) ≡ a * e j [ZMOD m]) {cs : List ℤ}
    (hsmall : ∀ j < cs.length, |e j| ≤ w) (hroot : m ∣ polyEval a cs)
    (hshort : (cs.map abs).sum * w < m) : combine e cs = 0 := by
  have hdvd : m ∣ combine e cs := by
    have hzero : polyEval a cs * e 0 ≡ 0 [ZMOD m] :=
      Int.modEq_zero_iff_dvd.mpr (hroot.mul_right _)
    exact Int.modEq_zero_iff_dvd.mp ((combine_modEq hstep cs).trans hzero)
  exact Int.eq_zero_of_abs_lt_dvd hdvd ((abs_combine_le hsmall).trans_lt hshort)

end Relations

/-! ### Two generators -/

/-- The differences of the states, modulo `m`. -/
def difference (m : ℕ) (x y : ℕ → ℕ) (j : ℕ) : ℤ := (x j % m : ℕ) - (y j % m : ℕ)

section Generators

variable {m w : ℕ} {x y : ℕ → ℕ}

theorem difference_step {a b : ℕ} (hx : ∀ j, x (j + 1) ≡ a * x j + b [MOD m])
    (hy : ∀ j, y (j + 1) ≡ a * y j + b [MOD m]) (j : ℕ) :
    difference m x y (j + 1) ≡ a * difference m x y j [ZMOD m] := by
  have hstate : ∀ z : ℕ → ℕ, (∀ j, z (j + 1) ≡ a * z j + b [MOD m]) →
      ((z (j + 1) % m : ℕ) : ℤ) ≡ a * (z j % m : ℕ) + b [ZMOD m] := by
    intro z hz
    have hmod : z (j + 1) % m ≡ a * (z j % m) + b [MOD m] :=
      (Nat.mod_modEq _ _).trans
        ((hz j).trans (((Nat.mod_modEq (z j) m).symm.mul_left a).add_right b))
    exact_mod_cast (Int.natCast_modEq_iff.mpr hmod)
  have hsub := (hstate x hx).sub (hstate y hy)
  rwa [add_sub_add_right_eq_sub, ← mul_sub] at hsub

/-- States with the same quotient differ by less than the divisor. -/
theorem abs_difference_le (hw : 0 < w) {j : ℕ} (hsame : x j % m / w = y j % m / w) :
    |difference m x y j| ≤ (w : ℤ) - 1 := by
  have hx := Nat.div_add_mod (x j % m) w
  have hy := Nat.div_add_mod (y j % m) w
  have hxw := Nat.mod_lt (x j % m) hw
  have hyw := Nat.mod_lt (y j % m) hw
  rw [hsame] at hx
  rw [difference, abs_le]
  omega

/-- A short relation holds exactly between the states of generators that show the same. -/
theorem combine_difference_eq_zero {a b : ℕ} (hw : 0 < w)
    (hx : ∀ j, x (j + 1) ≡ a * x j + b [MOD m]) (hy : ∀ j, y (j + 1) ≡ a * y j + b [MOD m])
    {cs : List ℤ} (hsame : ∀ j < cs.length, x j % m / w = y j % m / w)
    (hroot : (m : ℤ) ∣ polyEval a cs) (hshort : (cs.map abs).sum * ((w : ℤ) - 1) < m) :
    combine (difference m x y) cs = 0 :=
  combine_eq_zero (difference_step hx hy) (fun j hj => abs_difference_le hw (hsame j hj)) hroot
    hshort

end Generators

end MerlionKernel.Theory
