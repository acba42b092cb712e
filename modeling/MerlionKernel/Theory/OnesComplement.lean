import Mathlib.Tactic.Common

/-!
# Ones' complement sums

Addition of 16-bit words with the carry added at the low end, as the Internet checksum does it.
Numbers that agree modulo 65535 have the same sum, except that there are two zeros; a sum of words
that are not all zero is never the number 0.
-/

namespace MerlionKernel.Theory

/-- Ones' complement addition of 16-bit words. -/
def onesAdd (a b : Nat) : Nat := (a + b) % 65536 + (a + b) / 65536

/-- The ones' complement sum of words. -/
def onesSum : List Nat → Nat
  | [] => 0
  | w :: ws => onesAdd w (onesSum ws)

/-- The plain sum of words. -/
def total : List Nat → Nat
  | [] => 0
  | w :: ws => w + total ws

theorem total_append (ws ws' : List Nat) : total (ws ++ ws') = total ws + total ws' := by
  induction ws with
  | nil => rw [List.nil_append, total, Nat.zero_add]
  | cons w ws ih => rw [List.cons_append, total, total, ih, Nat.add_assoc]

theorem total_le {ws : List Nat} {n : Nat} (h : ∀ w ∈ ws, w ≤ n) : total ws ≤ ws.length * n := by
  induction ws with
  | nil => exact Nat.zero_le _
  | cons w ws ih =>
    obtain ⟨hw, hws⟩ := List.forall_mem_cons.mp h
    have hle := ih hws
    rw [total, List.length_cons, Nat.succ_mul]
    omega

theorem onesSum_spec {ws : List Nat} (h : ∀ w ∈ ws, w ≤ 65535) :
    onesSum ws ≤ 65535 ∧ onesSum ws % 65535 = total ws % 65535 ∧
      (onesSum ws = 0 → total ws = 0) := by
  induction ws with
  | nil => exact ⟨Nat.zero_le _, rfl, fun _ => rfl⟩
  | cons w ws ih =>
    obtain ⟨hw, hws⟩ := List.forall_mem_cons.mp h
    obtain ⟨hle, hmod, hzero⟩ := ih hws
    rw [onesSum, onesAdd, total]
    omega

/-- A checksum verifies: words whose plain sum is a positive multiple of 65535. -/
theorem onesSum_eq_max {ws : List Nat} (h : ∀ w ∈ ws, w ≤ 65535) (hmod : total ws % 65535 = 0)
    (hpos : total ws ≠ 0) : onesSum ws = 65535 := by
  obtain ⟨hle, hsum, hzero⟩ := onesSum_spec h
  have hne : onesSum ws ≠ 0 := fun h => hpos (hzero h)
  omega

/-- Adding the carries back until there is none. -/
def foldCarry (sum : Nat) : Nat :=
  if sum >>> 16 ≠ 0 then foldCarry ((sum &&& 0xFFFF) + (sum >>> 16)) else sum
termination_by sum
decreasing_by
  have hmask := Nat.and_two_pow_sub_one_eq_mod sum 16
  simp only [Nat.shiftRight_eq_div_pow, Nat.reducePow, Nat.reduceSub] at *
  omega

theorem foldCarry_spec (sum : Nat) :
    foldCarry sum ≤ 65535 ∧ foldCarry sum % 65535 = sum % 65535 := by
  fun_induction foldCarry sum with
  | case1 sum h ih =>
    have hmask := Nat.and_two_pow_sub_one_eq_mod sum 16
    simp only [Nat.shiftRight_eq_div_pow, Nat.reducePow, Nat.reduceSub] at *
    omega
  | case2 sum h =>
    simp only [Nat.shiftRight_eq_div_pow, Nat.reducePow] at h
    omega

end MerlionKernel.Theory
