import Mathlib.FieldTheory.Finite.Basic
import MerlionKernel.Rust.Exec

/-!
# RSA with small primes

The RSA functions of `crypto_ext.rs`. The primes come from a table of 80, the second one seven
places behind the first, and the state of the random number generator only selects the place.
Multiplication modulo a number doubles and adds, exponentiation squares and multiplies.

What was encrypted is decrypted again for every key and every message below the modulus, also for
one that shares a factor with it. The sums of residues never wrap.
-/

namespace MerlionKernel.Crypto.Rsa

open Rust

/-- A key pair. -/
structure RsaKeyPair where
  n : Nat
  e : Nat
  d : Nat
  p : Nat
  q : Nat

/-- `a.wrapping_add(b)` on `u64`. -/
def wrappingAdd (a b : Nat) : Exec Nat := .ok ((a + b) % 2 ^ 64)

/-- `a + b` on `u64`. -/
def checkedAdd (a b : Nat) : Exec Nat := u64 (a + b)

/-- The sum, less `m` if it is not below. -/
def addReduced (add : Nat → Nat → Exec Nat) (m a b : Nat) : Exec Nat := do
  let sum ← add a b
  if sum ≥ m then sub sum m else return sum

/-- Double `a` and halve `b`, after adding `a` to the result if `b` is odd. -/
def mulRound (add : Nat → Nat → Exec Nat) (m : Nat) (s : Nat × Nat × Nat) :
    Exec (ControlFlow (Nat × Nat × Nat) Nat) := do
  let (result, a, b) := s
  if b > 0 then
    let result ← if b % 2 = 1 then addReduced add m result a else pure result
    let a ← addReduced add m a a
    return .again (result, a, b / 2)
  else return .stop result

/-- The product modulo `m`, with the addition that is used for it. -/
def mulModWith (add : Nat → Nat → Exec Nat) (a b m : Nat) : Exec Nat := do
  let a ← rem a m
  let b ← rem b m
  loop (mulRound add m) 65 (0, a, b)

/-- The product modulo `m`. -/
def mulMod (a b m : Nat) : Exec Nat := mulModWith wrappingAdd a b m

/-- Square the base and halve the exponent, after multiplying the result by the base if the
exponent is odd. -/
def powRound (modulus : Nat) (s : Nat × Nat × Nat) :
    Exec (ControlFlow (Nat × Nat × Nat) Nat) := do
  let (result, base, exp) := s
  if exp > 0 then
    let result ← if exp % 2 = 1 then mulMod result base modulus else pure result
    let base ← mulMod base base modulus
    return .again (result, base, exp / 2)
  else return .stop result

/-- The power modulo `modulus`. -/
def modPow (base exp modulus : Nat) : Exec Nat :=
  if modulus = 1 then return 0
  else do
    let base ← rem base modulus
    loop (powRound modulus) 65 (1, base, exp)

/-- `n as i64`. -/
def asI64 (n : Nat) : Int := if n < 2 ^ 63 then n else n - 2 ^ 64

/-- `a / b` on `i64`. -/
def divI64 (a b : Int) : Exec Int := if b = 0 then .error .divide else i64 (a.tdiv b)

/-- The remainders of Euclid's algorithm and the factors of `a` in them. -/
structure Euclid where
  oldR : Int
  r : Int
  oldS : Int
  s : Int

def euclidRound (x : Euclid) : Exec (ControlFlow Euclid Euclid) :=
  if x.r ≠ 0 then do
    let q ← divI64 x.oldR x.r
    let r ← i64 (x.oldR - (← i64 (q * x.r)))
    let s ← i64 (x.oldS - (← i64 (q * x.s)))
    return .again ⟨x.r, r, x.s, s⟩
  else return .stop x

/-- The inverse of `a` modulo `m`. -/
def modInverse (a m : Nat) : Exec (Option Nat) := do
  let x ← loop euclidRound 128 ⟨asI64 a, asI64 m, 1, 0⟩
  if x.oldR ≠ 1 then return none
  else do
    let oldS ← if x.oldS < 0 then i64 (x.oldS + asI64 m) else pure x.oldS
    return some (oldS % 2 ^ 64).toNat

/-- `SMALL_PRIMES`. -/
def smallPrimes : List Nat := [
  251, 257, 263, 269, 271, 277, 281, 283, 293, 307,
  311, 313, 317, 331, 337, 347, 349, 353, 359, 367,
  373, 379, 383, 389, 397, 401, 409, 419, 421, 431,
  433, 439, 443, 449, 457, 461, 463, 467, 479, 487,
  491, 499, 503, 509, 521, 523, 541, 547, 557, 563,
  569, 571, 577, 587, 593, 599, 601, 607, 613, 617,
  619, 631, 641, 643, 647, 653, 659, 661, 673, 677,
  683, 691, 701, 709, 719, 727, 733, 739, 743, 751]

/-- A key pair for a state of the generator. The size that is asked for is not used. -/
def generateKeypair (_bitSize seed : Nat) : Exec RsaKeyPair := do
  let idxP := seed % smallPrimes.length
  let idxQ := (idxP + 7) % smallPrimes.length
  let p ← index smallPrimes idxP
  let q ← index smallPrimes idxQ
  let n ← u64 (p * q)
  let phi ← u64 ((← sub p 1) * (← sub q 1))
  let e := 65537
  let inverse ← modInverse e phi
  return { n, e, d := inverse.getD 3, p, q }

def rsaEncrypt (msg e n : Nat) : Exec Nat := modPow msg e n

def rsaDecrypt (cipher d n : Nat) : Exec Nat := modPow cipher d n

/-! ### Multiplication and exponentiation -/

section Arithmetic

variable {m : Nat}

/-- The addition is exact where the sum is a `u64`. -/
def Exact (add : Nat → Nat → Exec Nat) : Prop := ∀ a b, a + b < 2 ^ 64 → add a b = .ok (a + b)

theorem exact_wrappingAdd : Exact wrappingAdd := by
  intro a b h
  rw [wrappingAdd, Nat.mod_eq_of_lt h]

theorem exact_checkedAdd : Exact checkedAdd := fun _ _ h => u64_eq_ok h

variable {add : Nat → Nat → Exec Nat}

theorem addReduced_eq (hadd : Exact add) (hm : m ≤ 2 ^ 63) {a b : Nat} (ha : a < m) (hb : b < m) :
    addReduced add m a b = .ok ((a + b) % m) := by
  rw [addReduced, hadd a b (by omega), ok_bind]
  split_ifs with hge
  · rw [sub_eq_ok hge, Nat.mod_eq_sub_mod hge, Nat.mod_eq_of_lt (by omega)]
  · rw [Nat.mod_eq_of_lt (by omega)]
    rfl

/-- A number is twice its half and its last bit. -/
theorem double_half (b : Nat) : b = 2 * (b / 2) + b % 2 := (Nat.div_add_mod b 2).symm

theorem loop_mulRound (hadd : Exact add) (hm : m ≤ 2 ^ 63) {rounds result a b : Nat}
    (hresult : result < m) (ha : a < m) (hb : b < 2 ^ rounds) :
    loop (mulRound add m) (rounds + 1) (result, a, b) = .ok ((result + a * b) % m) := by
  induction rounds generalizing result a b with
  | zero =>
    obtain rfl : b = 0 := by omega
    rw [Nat.mul_zero, Nat.add_zero result, Nat.mod_eq_of_lt hresult]
    exact loop_stop rfl 0
  | succ rounds ih =>
    by_cases hzero : b = 0
    · subst hzero
      rw [Nat.mul_zero, Nat.add_zero result, Nat.mod_eq_of_lt hresult]
      exact loop_stop rfl _
    · have hpos : 0 < m := by omega
      have hstep : mulRound add m (result, a, b) =
          .ok (.again ((result + a * (b % 2)) % m, (a + a) % m, b / 2)) := by
        rw [mulRound, if_pos (Nat.pos_of_ne_zero hzero)]
        rcases Nat.mod_two_eq_zero_or_one b with hbit | hbit
        · rw [if_neg (by omega), pure_eq_ok, ok_bind, addReduced_eq hadd hm ha ha, hbit,
            Nat.mul_zero, Nat.add_zero, Nat.mod_eq_of_lt hresult]
          rfl
        · rw [if_pos hbit, addReduced_eq hadd hm hresult ha, ok_bind,
            addReduced_eq hadd hm ha ha, hbit, Nat.mul_one]
          rfl
      rw [loop_again hstep, ih (Nat.mod_lt _ hpos) (Nat.mod_lt _ hpos) (by omega)]
      -- The doubled `a` taken half as often, and once more if `b` is odd.
      congr 1
      have hsplit : result + a * b = result + a * (b % 2) + (a + a) * (b / 2) := by
        conv_lhs => rw [double_half b]
        ring
      rw [hsplit]
      exact ((Nat.mod_modEq _ m).add ((Nat.mod_modEq _ m).mul_right _))

theorem mulModWith_eq (hadd : Exact add) (hpos : 0 < m) (hm : m ≤ 2 ^ 63) (a b : Nat) :
    mulModWith add a b m = .ok (a * b % m) := by
  have hrem : ∀ x, rem x m = .ok (x % m) := fun x => if_neg hpos.ne'
  have hb : b % m < 2 ^ 64 := (Nat.mod_lt b hpos).trans_le (hm.trans (by decide))
  rw [mulModWith, hrem, ok_bind, hrem, ok_bind,
    loop_mulRound hadd hm hpos (Nat.mod_lt a hpos) hb, Nat.zero_add, ← Nat.mul_mod]

theorem mulMod_eq (hpos : 0 < m) (hm : m ≤ 2 ^ 63) (a b : Nat) : mulMod a b m = .ok (a * b % m) :=
  mulModWith_eq exact_wrappingAdd hpos hm a b

theorem loop_powRound (hpos : 0 < m) (hm : m ≤ 2 ^ 63) {rounds result base exp : Nat}
    (hresult : result < m) (hexp : exp < 2 ^ rounds) :
    loop (powRound m) (rounds + 1) (result, base, exp) = .ok (result * base ^ exp % m) := by
  induction rounds generalizing result base exp with
  | zero =>
    obtain rfl : exp = 0 := by omega
    rw [pow_zero, Nat.mul_one, Nat.mod_eq_of_lt hresult]
    exact loop_stop rfl 0
  | succ rounds ih =>
    by_cases hzero : exp = 0
    · subst hzero
      rw [pow_zero, Nat.mul_one, Nat.mod_eq_of_lt hresult]
      exact loop_stop rfl _
    · have hstep : powRound m (result, base, exp) =
          .ok (.again (result * base ^ (exp % 2) % m, base * base % m, exp / 2)) := by
        rw [powRound, if_pos (Nat.pos_of_ne_zero hzero)]
        rcases Nat.mod_two_eq_zero_or_one exp with hbit | hbit
        · rw [if_neg (by omega), pure_eq_ok, ok_bind, mulMod_eq hpos hm, hbit, pow_zero,
            Nat.mul_one, Nat.mod_eq_of_lt hresult]
          rfl
        · rw [if_pos hbit, mulMod_eq hpos hm, ok_bind, mulMod_eq hpos hm, hbit, pow_one]
          rfl
      rw [loop_again hstep, ih (Nat.mod_lt _ hpos) (by omega)]
      congr 1
      have hsplit : result * base ^ exp =
          result * base ^ (exp % 2) * (base * base) ^ (exp / 2) := by
        conv_lhs => rw [double_half exp]
        rw [pow_add, pow_mul, sq]
        ring
      rw [hsplit]
      exact ((Nat.mod_modEq _ m).mul ((Nat.mod_modEq _ m).pow _))

theorem modPow_eq (hm : 1 < m) (hm' : m ≤ 2 ^ 63) (base : Nat) {exp : Nat} (hexp : exp < 2 ^ 64) :
    modPow base exp m = .ok (base ^ exp % m) := by
  have hrem : rem base m = .ok (base % m) := if_neg (by omega)
  rw [modPow, if_neg hm.ne', hrem, ok_bind, loop_powRound (by omega) hm' hm hexp, Nat.one_mul,
    ← Nat.pow_mod]

end Arithmetic

/-! ### Keys -/

/-- A number of the table is below 28 ^ 2 and has no divisor below 28. -/
theorem smallPrimes_table : ∀ p ∈ smallPrimes, 2 ≤ p ∧ p < 28 * 28 ∧
    ∀ d < 28, 2 ≤ d → p % d ≠ 0 := by
  decide +kernel

theorem prime_of_mem_smallPrimes {p : Nat} (h : p ∈ smallPrimes) : p.Prime := by
  obtain ⟨hp, hlt, hdivisors⟩ := smallPrimes_table p h
  rw [Nat.prime_def_le_sqrt]
  refine ⟨hp, fun d hd hsqrt hdvd => ?_⟩
  exact hdivisors d (hsqrt.trans_lt (Nat.sqrt_lt.mpr hlt)) hd (Nat.mod_eq_zero_of_dvd hdvd)

/-- What makes a key pair one. -/
structure Sound (k : RsaKeyPair) : Prop where
  prime_p : k.p.Prime
  prime_q : k.q.Prime
  ne : k.p ≠ k.q
  n_eq : k.n = k.p * k.q
  inverse : k.e * k.d % ((k.p - 1) * (k.q - 1)) = 1
  n_le : k.n ≤ 2 ^ 63
  e_lt : k.e < 2 ^ 64
  d_lt : k.d < 2 ^ 64

/-- The factors of `a` give the remainders modulo `m`, and are not too large. -/
def Euclid.Holds (a m : Int) (x : Euclid) : Prop :=
  (x.oldS * a ≡ x.oldR [ZMOD m] ∧ x.oldS < 2 ^ 63) ∧ x.s * a ≡ x.r [ZMOD m] ∧ x.s < 2 ^ 63

theorem eq_of_i64 {a b : Int} (h : i64 a = .ok b) : a = b ∧ -2 ^ 63 ≤ b ∧ b < 2 ^ 63 := by
  unfold i64 at h
  split_ifs at h with hrange
  cases h
  exact ⟨rfl, hrange⟩

theorem Euclid.Holds.round {a m : Int} {x y : Euclid} {flow : ControlFlow Euclid Euclid}
    (h : x.Holds a m) (hround : euclidRound x = .ok flow) (hy : flow = .again y ∨ flow = .stop y) :
    y.Holds a m := by
  unfold euclidRound at hround
  split_ifs at hround
  · obtain ⟨⟨hold, -⟩, hs, hlt⟩ := h
    obtain ⟨q, -, hround⟩ := bind_eq_ok_iff.mp hround
    obtain ⟨qr, hqr, hround⟩ := bind_eq_ok_iff.mp hround
    obtain ⟨r, hr, hround⟩ := bind_eq_ok_iff.mp hround
    obtain ⟨qs, hqs, hround⟩ := bind_eq_ok_iff.mp hround
    obtain ⟨s, hs', hround⟩ := bind_eq_ok_iff.mp hround
    cases hround
    obtain ⟨rfl, -⟩ := eq_of_i64 hqr
    obtain ⟨rfl, -⟩ := eq_of_i64 hr
    obtain ⟨rfl, -⟩ := eq_of_i64 hqs
    obtain ⟨rfl, -, hlt'⟩ := eq_of_i64 hs'
    rcases hy with heq | heq
    · cases heq
      refine ⟨⟨hs, hlt⟩, ?_, hlt'⟩
      rw [sub_mul, mul_assoc]
      exact hold.sub (hs.mul_left q)
    · cases heq
  · cases hround
    rcases hy with heq | heq
    · cases heq
    · cases heq
      exact h

theorem mul_modInverse {a m d : Nat} (ha : a < 2 ^ 63) (hm : 1 < m) (hm' : m < 2 ^ 63)
    (h : d ∈ (modInverse a m).toOption.join) (hd : d < m) : a * d % m = 1 := by
  have h : modInverse a m = .ok (some d) := by
    cases hinverse : modInverse a m with
    | error fault =>
      rw [hinverse] at h
      cases h
    | ok inverse =>
      rw [hinverse] at h
      exact congrArg Except.ok h
  obtain ⟨x, hloop, h⟩ := bind_eq_ok_iff.mp h
  have hx : x.Holds a m := by
    refine loop_invariant (Euclid.Holds a m) (fun _ _ h hround => h.round hround (.inl rfl))
      (fun _ _ h hround => h.round hround (.inr rfl)) ?_ hloop
    rw [asI64, asI64, if_pos ha, if_pos hm']
    refine ⟨⟨by rw [one_mul], by norm_num⟩, ?_, by norm_num⟩
    rw [zero_mul]
    exact (Int.modEq_zero_iff_dvd.mpr dvd_rfl).symm
  by_cases hone : x.oldR = 1
  · rw [if_neg (not_not_intro hone)] at h
    -- A factor below 0 would have been cast to a number that is too large.
    have hfactor : (d : Int) ≡ x.oldS [ZMOD m] := by
      dsimp only at h
      split_ifs at h with hneg
      · obtain ⟨oldS, hoff, h⟩ := bind_eq_ok_iff.mp h
        cases h
        obtain ⟨rfl, hlow, hhigh⟩ := eq_of_i64 hoff
        rw [asI64, if_pos hm'] at hd hlow hhigh ⊢
        rw [Int.toNat_of_nonneg (by omega), Int.emod_eq_of_lt (by omega) (by omega)]
        simp [Int.ModEq]
      · cases h
        have hlt := hx.1.2
        rw [Int.toNat_of_nonneg (by omega), Int.emod_eq_of_lt (by omega) (by omega)]
    have hmul : (a * d : Int) ≡ 1 [ZMOD m] := by
      rw [mul_comm, ← hone]
      exact (hfactor.mul_right _).trans hx.1.1
    have hnat : a * d ≡ 1 [MOD m] := by
      rw [← Int.natCast_modEq_iff]
      exact_mod_cast hmul
    rw [hnat, Nat.mod_eq_of_lt hm]
  · rw [if_pos hone] at h
    cases h

/-- The primes at every place of the table differ, and Euclid's algorithm returns for them. -/
theorem generateKeypair_table : ∀ i < 80, ∃ k ∈ (generateKeypair 0 i).toOption,
    k.p ∈ smallPrimes ∧ k.q ∈ smallPrimes ∧ k.p ≠ k.q ∧ k.n = k.p * k.q ∧ k.n ≤ 2 ^ 63 ∧
      k.e < 2 ^ 63 ∧ k.d ∈ (modInverse k.e ((k.p - 1) * (k.q - 1))).toOption.join ∧
      1 < (k.p - 1) * (k.q - 1) ∧ k.d < (k.p - 1) * (k.q - 1) ∧
      (k.p - 1) * (k.q - 1) < 2 ^ 63 := by
  decide +kernel

theorem generateKeypair_returns (bitSize seed : Nat) :
    Returns (generateKeypair bitSize seed) Sound := by
  have hseed : generateKeypair bitSize seed = generateKeypair 0 (seed % 80) := by
    unfold generateKeypair
    rw [show smallPrimes.length = 80 from rfl, Nat.mod_mod]
  obtain ⟨k, hk, hp, hq, hne, hn, hn_le, he, hinverse, hphi, hd, hphi'⟩ :=
    generateKeypair_table (seed % 80) (Nat.mod_lt _ (by decide))
  refine ⟨k, ?_, prime_of_mem_smallPrimes hp, prime_of_mem_smallPrimes hq, hne, hn,
    mul_modInverse he hphi hphi' hinverse hd, hn_le, he.trans (by decide),
    (hd.trans hphi').trans (by decide)⟩
  rw [hseed]
  cases hgen : generateKeypair 0 (seed % 80) with
  | error fault => simp [hgen, Except.toOption] at hk
  | ok k' =>
    rw [hgen] at hk
    exact congrArg Except.ok (Option.some.inj hk)

/-! ### The round trip -/

/-- Fermat's theorem for a power that is one more than a multiple, of any number. -/
theorem pow_modEq_self {p : Nat} (hp : p.Prime) (k msg : Nat) :
    msg ^ (1 + (p - 1) * k) ≡ msg [MOD p] := by
  have := Fact.mk hp
  rw [← ZMod.natCast_eq_natCast_iff]
  push_cast
  by_cases hzero : (msg : ZMod p) = 0
  · rw [hzero, zero_pow (by omega)]
  · rw [pow_add, pow_mul, ZMod.pow_card_sub_one_eq_one hzero, one_pow, pow_one, mul_one]

theorem Sound.pow_modEq {k : RsaKeyPair} (h : Sound k) (msg : Nat) :
    msg ^ (k.e * k.d) ≡ msg [MOD k.n] := by
  have hexp := Nat.mod_add_div (k.e * k.d) ((k.p - 1) * (k.q - 1))
  rw [h.inverse] at hexp
  generalize k.e * k.d / ((k.p - 1) * (k.q - 1)) = t at hexp
  have hcoprime : k.p.Coprime k.q := (Nat.coprime_primes h.prime_p h.prime_q).mpr h.ne
  rw [h.n_eq, ← hexp, ← Nat.modEq_and_modEq_iff_modEq_mul hcoprime]
  constructor
  · rw [Nat.mul_assoc]
    exact pow_modEq_self h.prime_p _ msg
  · rw [Nat.mul_comm (k.p - 1), Nat.mul_assoc]
    exact pow_modEq_self h.prime_q _ msg

/-- Whatever key is generated, every message below the modulus comes back, and the sums made on
the way do not wrap. -/
theorem rsa_roundTrip (bitSize seed : Nat) :
    ∃ k, generateKeypair bitSize seed = .ok k ∧
      (∀ msg < k.n, ∃ cipher, rsaEncrypt msg k.e k.n = .ok cipher ∧
        rsaDecrypt cipher k.d k.n = .ok msg) ∧
      ∀ a b, mulModWith checkedAdd a b k.n = mulMod a b k.n := by
  obtain ⟨k, hk, h⟩ := generateKeypair_returns bitSize seed
  have hn : 1 < k.n := by
    rw [h.n_eq]
    exact Nat.one_lt_mul_iff.mpr ⟨h.prime_p.pos, h.prime_q.pos, .inl h.prime_p.one_lt⟩
  refine ⟨k, hk, fun msg hmsg => ⟨_, modPow_eq hn h.n_le msg h.e_lt, ?_⟩, fun a b => ?_⟩
  · rw [rsaDecrypt, modPow_eq hn h.n_le _ h.d_lt, ← Nat.pow_mod, ← pow_mul]
    exact congrArg Except.ok (Eq.trans (h.pow_modEq msg) (Nat.mod_eq_of_lt hmsg))
  · rw [mulModWith_eq exact_checkedAdd (by omega) h.n_le, mulMod_eq (by omega) h.n_le]

end MerlionKernel.Crypto.Rsa
