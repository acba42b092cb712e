import MerlionKernel.Rust.Exec

/-!
# Token buckets

The `TokenBucket` of `ratelimit.rs`. The tick of the timer is an argument of what reads it.

What a bucket grants in an interval comes out of the tokens it held when the interval began and of
those that came in since. So it is bounded by the capacity and the refill, and this is the sustained
rate that was asked for exactly when the rate per tick is not rounded up.
-/

namespace MerlionKernel.Ratelimit

open Rust

/-- `PIT_FREQUENCY_HZ`: ticks per second. -/
def pitFrequencyHz : Nat := 100

/-- `saturating_mul` of two `u64`. -/
def saturatingMul (a b : Nat) : Nat := min (a * b) (2 ^ 64 - 1)

/-- A bucket that refills at a steady rate. The fields are `u64`. -/
structure TokenBucket where
  capacity : Nat
  tokens : Nat
  refillRatePerTick : Nat
  lastRefillTick : Nat
  deriving DecidableEq

/-- The tokens that come in with a tick: a rate below one per tick is rounded up. -/
def ratePerTick (ratePerSec : Nat) : Nat :=
  let refillRatePerTick := ratePerSec / pitFrequencyHz
  if refillRatePerTick = 0 ∧ ratePerSec > 0 then 1 else refillRatePerTick

namespace TokenBucket

/-- A new bucket is full. -/
def new (capacity ratePerSec now : Nat) : TokenBucket where
  capacity := capacity
  tokens := capacity
  refillRatePerTick := ratePerTick ratePerSec
  lastRefillTick := now

/-- Add the tokens for the time since the last refill. -/
def refill (b : TokenBucket) (now : Nat) : Exec TokenBucket :=
  if now ≤ b.lastRefillTick then return b
  else do
    let elapsed := now - b.lastRefillTick
    let add := saturatingMul elapsed b.refillRatePerTick
    let tokens ← u64 (b.tokens + add)
    return { b with tokens := min tokens b.capacity, lastRefillTick := now }

/-- Take `n` tokens, if they are there after a refill. -/
def tryConsume (b : TokenBucket) (now n : Nat) : Exec (Bool × TokenBucket) := do
  let b ← b.refill now
  if b.tokens ≥ n then return (true, { b with tokens := b.tokens - n })
  else return (false, b)

end TokenBucket

/-! ### Sequences of calls -/

/-- An amount of tokens at a tick: what a call asks for, or what was granted. -/
structure Amount where
  tick : Nat
  tokens : Nat
  deriving DecidableEq

/-- Make the calls in order. The log has what was granted. -/
def consumeAll (b : TokenBucket) : List Amount → Exec (List Amount × TokenBucket)
  | [] => return ([], b)
  | call :: calls => do
    let (granted, b) ← b.tryConsume call.tick call.tokens
    let (log, b) ← consumeAll b calls
    return (if granted then call :: log else log, b)

/-- The tokens granted from tick `lo` to tick `hi`. -/
def grantedWithin (lo hi : Nat) : List Amount → Nat
  | [] => 0
  | g :: log => (if lo ≤ g.tick ∧ g.tick ≤ hi then g.tokens else 0) + grantedWithin lo hi log

/-- The calls come at non-decreasing ticks, from `first` to `last`. -/
def InOrder (last : Nat) : Nat → List Amount → Prop
  | _, [] => True
  | first, call :: calls => first ≤ call.tick ∧ call.tick ≤ last ∧ InOrder last call.tick calls

/-- A bucket that is made at tick `first` keeps to its rate up to tick `last`: whatever the calls,
all return, the tokens never exceed the capacity, and what is granted in an interval of `t` ticks is
at most the capacity and the rate times the interval. -/
def Conforms (capacity ratePerSec first last : Nat) : Prop :=
  ∀ calls, InOrder last first calls →
    Returns (consumeAll (.new capacity ratePerSec first) calls) fun (log, b) =>
      b.tokens ≤ capacity ∧
        ∀ lo t, grantedWithin lo (lo + t) log ≤ capacity + ratePerSec * t / pitFrequencyHz

/-! ### One call -/

theorem saturatingMul_le (a b : Nat) : saturatingMul a b ≤ a * b := Nat.min_le_left _ _

theorem saturatingMul_mono {a a' : Nat} (h : a ≤ a') (b : Nat) :
    saturatingMul a b ≤ saturatingMul a' b := by
  have hmul := Nat.mul_le_mul_right b h
  unfold saturatingMul
  omega

@[simp] theorem saturatingMul_zero (b : Nat) : saturatingMul 0 b = 0 := by simp [saturatingMul]

namespace TokenBucket

/-- The tokens after a refill. -/
def level (b : TokenBucket) (now : Nat) : Nat :=
  min (b.tokens + saturatingMul (now - b.lastRefillTick) b.refillRatePerTick) b.capacity

theorem level_le_capacity (b : TokenBucket) (now : Nat) : b.level now ≤ b.capacity :=
  Nat.min_le_right _ _

/-- The tokens and those that come in by tick `now` fit. -/
def Fits (b : TokenBucket) (now : Nat) : Prop :=
  b.tokens + saturatingMul (now - b.lastRefillTick) b.refillRatePerTick < 2 ^ 64

theorem refill_eq_ok {b : TokenBucket} {now : Nat} (hfull : b.tokens ≤ b.capacity)
    (hnow : b.lastRefillTick ≤ now) (hfits : b.lastRefillTick < now → b.Fits now) :
    b.refill now = .ok { b with tokens := b.level now, lastRefillTick := now } := by
  unfold refill
  by_cases hsame : now ≤ b.lastRefillTick
  · obtain rfl : now = b.lastRefillTick := by omega
    have hlevel : b.level b.lastRefillTick = b.tokens := by simp [level, hfull]
    rw [if_pos hsame, hlevel]
    rfl
  · have hfits' := hfits (by omega)
    rw [if_neg hsame]
    dsimp only
    rw [u64_eq_ok hfits']
    rfl

/-- A call takes what it is granted out of the level. -/
theorem tryConsume_eq_ok {b : TokenBucket} {now : Nat} (hfull : b.tokens ≤ b.capacity)
    (hnow : b.lastRefillTick ≤ now) (hfits : b.lastRefillTick < now → b.Fits now) (n : Nat) :
    b.tryConsume now n = .ok (decide (n ≤ b.level now), { b with
      tokens := if n ≤ b.level now then b.level now - n else b.level now
      lastRefillTick := now }) := by
  rw [tryConsume, refill_eq_ok hfull hnow hfits, ok_bind]
  by_cases henough : n ≤ b.level now
  · simp [henough]
  · simp [henough]

theorem fits_of_tryConsume {b : TokenBucket} {now n : Nat} {r : Bool × TokenBucket}
    (h : b.tryConsume now n = .ok r) (hnow : b.lastRefillTick < now) : b.Fits now := by
  obtain ⟨b', hrefill, -⟩ := bind_eq_ok_iff.mp h
  rw [refill, if_neg (by omega)] at hrefill
  obtain ⟨tokens, hadd, -⟩ := bind_eq_ok_iff.mp hrefill
  exact (u64_eq_ok_iff.mp hadd).1

end TokenBucket

/-! ### Conformance -/

/-- What a bucket can grant from tick `lo` to tick `hi` at `r` tokens a tick: what it holds, if the
interval has begun, or what it may hold then, and what comes in. -/
def budget (b : TokenBucket) (r lo hi : Nat) : Nat :=
  if lo ≤ b.lastRefillTick then b.tokens + r * (hi - b.lastRefillTick)
  else b.capacity + r * (hi - lo)

/-- Up to tick `last` the bucket gets at most `r` tokens a tick that it can keep. -/
def Slow (b : TokenBucket) (r last : Nat) : Prop :=
  b.capacity = 0 ∨ b.refillRatePerTick ≤ r ∨ last ≤ b.lastRefillTick

theorem Slow.level_le {b : TokenBucket} {r last now : Nat} (h : Slow b r last)
    (hlast : now ≤ last) :
    b.level now ≤ b.tokens + r * (now - b.lastRefillTick) := by
  have hfull := b.level_le_capacity now
  -- nothing can be held, or the rate is kept, or no tick goes by
  rcases h with hzero | hle | hstill
  · omega
  · have hmul := Nat.mul_le_mul_left (now - b.lastRefillTick) hle
    have hsat := saturatingMul_le (now - b.lastRefillTick) b.refillRatePerTick
    rw [Nat.mul_comm r]
    exact Nat.le_trans (Nat.min_le_left _ _) (by omega)
  · rw [Nat.sub_eq_zero_of_le (by omega), Nat.mul_zero, TokenBucket.level,
      Nat.sub_eq_zero_of_le (by omega), saturatingMul_zero]
    exact Nat.min_le_left _ _

/-- A call within the interval is paid for by the budget. -/
theorem budget_of_call {b b' : TokenBucket} {r lo hi now g : Nat}
    (hcame : b.level now ≤ b.tokens + r * (now - b.lastRefillTick)) (hnow : b.lastRefillTick ≤ now)
    (htaken : b'.tokens + g = b.level now) (hcapacity : b'.capacity = b.capacity)
    (htick : b'.lastRefillTick = now) (hhi : now ≤ hi) :
    (if lo ≤ now then g else 0) + budget b' r lo hi ≤ budget b r lo hi := by
  have hfull := b.level_le_capacity now
  have hsplit : r * (hi - b.lastRefillTick) = r * (now - b.lastRefillTick) + r * (hi - now) := by
    rw [← Nat.mul_add]
    congr 1
    omega
  unfold budget
  rw [htick, hcapacity]
  by_cases hlo : lo ≤ now
  · rw [if_pos hlo, if_pos hlo]
    by_cases hbegun : lo ≤ b.lastRefillTick
    · rw [if_pos hbegun]
      omega
    -- the interval begins between the calls, where the bucket may have been full
    · have hmono : r * (hi - now) ≤ r * (hi - lo) := Nat.mul_le_mul_left r (by omega)
      rw [if_neg hbegun]
      omega
  · rw [if_neg hlo, if_neg hlo, if_neg (by omega)]
    omega

/-- The bucket holds at most its capacity, and the tokens that come in by tick `last` fit. -/
structure Sound (b : TokenBucket) (last : Nat) : Prop where
  full : b.tokens ≤ b.capacity
  fits : b.lastRefillTick < last →
    b.capacity + saturatingMul (last - b.lastRefillTick) b.refillRatePerTick < 2 ^ 64

/-- All calls return, and what is granted in an interval is within the budget for it. -/
theorem consumeAll_returns {last r : Nat} {calls : List Amount} {b : TokenBucket}
    (hb : Sound b last) (hslow : Slow b r last) (horder : InOrder last b.lastRefillTick calls) :
    Returns (consumeAll b calls) fun (log, b') =>
      b'.tokens ≤ b.capacity ∧
        ∀ lo hi, grantedWithin lo hi log ≤ budget b r lo hi ∧
          (hi < b.lastRefillTick → grantedWithin lo hi log = 0) := by
  -- The bucket varies: what the calls behind the first one are granted is measured against
  -- the budget of the bucket that the first one leaves.
  induction calls generalizing b with
  | nil => exact .ok ⟨hb.full, fun lo hi => ⟨Nat.zero_le _, fun _ => rfl⟩⟩
  | cons call calls ih =>
    obtain ⟨hfirst, hlast, horder⟩ := horder
    obtain ⟨hfull, hfits⟩ := hb
    have hlevel := b.level_le_capacity call.tick
    have hroom : b.lastRefillTick < call.tick → b.Fits call.tick := by
      intro hlt
      have hmono := saturatingMul_mono
        (show call.tick - b.lastRefillTick ≤ last - b.lastRefillTick by omega) b.refillRatePerTick
      have hfits' := hfits (by omega)
      unfold TokenBucket.Fits
      omega
    -- the bucket after the call
    obtain ⟨b₁, hb₁⟩ : ∃ b₁, b₁ = { b with
        tokens := if call.tokens ≤ b.level call.tick then b.level call.tick - call.tokens
          else b.level call.tick
        lastRefillTick := call.tick } := ⟨_, rfl⟩
    have htaken : b₁.tokens + (if call.tokens ≤ b.level call.tick then call.tokens else 0) =
        b.level call.tick := by
      rw [hb₁]
      dsimp only
      split_ifs <;> omega
    have hcapacity : b₁.capacity = b.capacity := by rw [hb₁]
    have hrate : b₁.refillRatePerTick = b.refillRatePerTick := by rw [hb₁]
    have htick : b₁.lastRefillTick = call.tick := by rw [hb₁]
    have hsound₁ : Sound b₁ last := by
      refine ⟨by omega, fun hlt => ?_⟩
      have hmono := saturatingMul_mono
        (show last - call.tick ≤ last - b.lastRefillTick by omega) b.refillRatePerTick
      have hfits' := hfits (by omega)
      rw [hcapacity, hrate, htick]
      omega
    have hslow₁ : Slow b₁ r last := by
      unfold Slow
      rw [hcapacity, hrate, htick]
      exact hslow.imp_right (Or.imp_right fun hstill => Nat.le_trans hstill hfirst)
    obtain ⟨⟨log, b₂⟩, hrest, htokens, hwithin⟩ :=
      ih hsound₁ hslow₁ (by rw [htick]; exact horder)
    rw [consumeAll, TokenBucket.tryConsume_eq_ok hfull hfirst hroom, ← hb₁, ok_bind]
    dsimp only
    rw [hrest, ok_bind]
    refine .ok ⟨hcapacity ▸ htokens, fun lo hi => ?_⟩
    obtain ⟨hbudget, hbefore⟩ := hwithin lo hi
    rw [htick] at hbefore
    -- the call itself, if it is granted and lies in the interval
    have hlog : grantedWithin lo hi
        (if decide (call.tokens ≤ b.level call.tick) = true then call :: log else log) =
        (if lo ≤ call.tick ∧ call.tick ≤ hi then
          if call.tokens ≤ b.level call.tick then call.tokens else 0 else 0) +
          grantedWithin lo hi log := by
      by_cases hgranted : call.tokens ≤ b.level call.tick <;> simp [hgranted, grantedWithin]
    rw [hlog]
    by_cases hhi : call.tick ≤ hi
    · have hpaid := @budget_of_call b b₁ r lo hi _ _ (hslow.level_le hlast) hfirst htaken hcapacity
        htick hhi
      simp only [hhi, and_true]
      exact ⟨by omega, fun h => by omega⟩
    · rw [if_neg fun h => hhi h.2, hbefore (by omega)]
      exact ⟨Nat.zero_le _, fun _ => rfl⟩

/-- Rounding down keeps to the rate. -/
theorem ratePerTick_le {ratePerSec : Nat} (h : ratePerSec = 0 ∨ pitFrequencyHz ≤ ratePerSec) :
    ratePerTick ratePerSec ≤ ratePerSec / pitFrequencyHz := by
  unfold ratePerTick
  unfold pitFrequencyHz at h ⊢
  dsimp only
  split_ifs <;> omega

/-- The budget of a new bucket for an interval. -/
theorem budget_new_le (capacity ratePerSec first lo t : Nat) :
    budget (.new capacity ratePerSec first) (ratePerSec / pitFrequencyHz) lo (lo + t) ≤
      capacity + ratePerSec * t / pitFrequencyHz := by
  have hinterval : ratePerSec / pitFrequencyHz * t ≤ ratePerSec * t / pitFrequencyHz := by
    rw [Nat.mul_comm, Nat.mul_comm ratePerSec]
    exact Nat.mul_div_le_mul_div_assoc t ratePerSec pitFrequencyHz
  have hmono : lo ≤ first →
      ratePerSec / pitFrequencyHz * (lo + t - first) ≤ ratePerSec / pitFrequencyHz * t :=
    fun hbegun => Nat.mul_le_mul_left _ (by omega)
  have hbudget : budget (.new capacity ratePerSec first) (ratePerSec / pitFrequencyHz) lo (lo + t) =
      if lo ≤ first then capacity + ratePerSec / pitFrequencyHz * (lo + t - first)
      else capacity + ratePerSec / pitFrequencyHz * (lo + t - lo) := rfl
  rw [hbudget, Nat.add_sub_cancel_left]
  split_ifs with hbegun
  · have hmono' := hmono hbegun
    omega
  · omega

/-- The bucket is emptied, and a tick later a whole token is there. -/
theorem consumeAll_burst {capacity ratePerSec : Nat} (hcapacity : 0 < capacity)
    (htick : ratePerTick ratePerSec = 1) (first : Nat) :
    ∃ b, consumeAll (.new capacity ratePerSec first) [⟨first, capacity⟩, ⟨first + 1, 1⟩] =
      .ok ([⟨first, capacity⟩, ⟨first + 1, 1⟩], b) := by
  have hfull : (TokenBucket.new capacity ratePerSec first).level first = capacity := by
    simp [TokenBucket.level, TokenBucket.new]
  have hone : (⟨capacity, 0, 1, first⟩ : TokenBucket).level (first + 1) = 1 := by
    rw [TokenBucket.level, Nat.add_sub_cancel_left, show saturatingMul 1 1 = 1 from rfl]
    dsimp only
    omega
  have hcall : (TokenBucket.new capacity ratePerSec first).tryConsume first capacity =
      .ok (true, ⟨capacity, 0, 1, first⟩) := by
    rw [@TokenBucket.tryConsume_eq_ok (.new capacity ratePerSec first) first (Nat.le_refl _)
      (Nat.le_refl _) (fun hlt => absurd hlt (Nat.lt_irrefl first)), hfull]
    simp [TokenBucket.new, htick]
  have hnext : (⟨capacity, 0, 1, first⟩ : TokenBucket).tryConsume (first + 1) 1 =
      .ok (true, ⟨capacity, 0, 1, first + 1⟩) := by
    rw [TokenBucket.tryConsume_eq_ok (Nat.zero_le capacity) (Nat.le_succ first), hone]
    · rfl
    · intro _
      rw [TokenBucket.Fits, Nat.add_sub_cancel_left]
      exact show 0 + saturatingMul 1 1 < 2 ^ 64 by decide
  refine ⟨⟨capacity, 0, 1, first + 1⟩, ?_⟩
  simp only [consumeAll, hcall, hnext, ok_bind, pure_eq_ok, if_true]

/-- A bucket that is full for a tick or more must have room in its counter for the tokens that come
in, and a rate below one token a tick pays out too much, unless nothing can be held. -/
theorem conforms_iff (capacity ratePerSec first last : Nat) :
    Conforms capacity ratePerSec first last ↔
      last ≤ first ∨
        capacity + saturatingMul (last - first) (ratePerTick ratePerSec) < 2 ^ 64 ∧
          (capacity = 0 ∨ ratePerSec = 0 ∨ pitFrequencyHz ≤ ratePerSec) := by
  constructor
  · intro h
    by_cases hempty : last ≤ first
    · exact .inl hempty
    refine .inr ⟨?_, ?_⟩
    · -- a single call at the last tick finds the bucket full
      obtain ⟨result, hrun, -⟩ := h [⟨last, 0⟩] ⟨Nat.le_of_not_le hempty, Nat.le_refl _, trivial⟩
      obtain ⟨_, hcall, -⟩ := bind_eq_ok_iff.mp hrun
      exact TokenBucket.fits_of_tryConsume hcall (Nat.lt_of_not_le hempty)
    · by_contra hround
      push Not at hround
      obtain ⟨hcapacity, hrate, hslow⟩ := hround
      have htick : ratePerTick ratePerSec = 1 := by
        unfold ratePerTick
        unfold pitFrequencyHz at hslow ⊢
        rw [if_pos (by omega)]
      obtain ⟨⟨log, b⟩, hrun, -, hwithin⟩ := h [⟨first, capacity⟩, ⟨first + 1, 1⟩]
        ⟨Nat.le_refl _, by dsimp only; omega, Nat.le_succ _, by dsimp only; omega, trivial⟩
      obtain ⟨b', hburst⟩ := consumeAll_burst (Nat.pos_of_ne_zero hcapacity) htick first
      rw [hburst] at hrun
      cases hrun
      have hbound := hwithin first 1
      simp only [grantedWithin, Nat.le_refl, Nat.le_add_right, and_self, if_true] at hbound
      unfold pitFrequencyHz at hbound hslow
      omega
  · intro h calls horder
    have hsound : Sound (.new capacity ratePerSec first) last := by
      refine ⟨Nat.le_refl _, fun hlt => ?_⟩
      rcases h with hempty | ⟨hfits, -⟩
      · exact absurd hlt (Nat.not_lt_of_le hempty)
      · exact hfits
    have hslow : Slow (.new capacity ratePerSec first) (ratePerSec / pitFrequencyHz) last := by
      rcases h with hempty | ⟨-, hzero | hround⟩
      · exact .inr (.inr hempty)
      · exact .inl hzero
      · exact .inr (.inl (ratePerTick_le hround))
    refine (consumeAll_returns hsound hslow horder).mono ?_
    rintro ⟨log, b⟩ ⟨htokens, hwithin⟩
    refine ⟨htokens, fun lo t => ?_⟩
    exact Nat.le_trans (hwithin lo (lo + t)).1 (budget_new_le capacity ratePerSec first lo t)

/-- A bucket of one token at one token a second grants two within a tick, and a full bucket whose
counter is at its end stops at the first refill. -/
theorem not_conforms_slow_or_large :
    (∃ b, consumeAll (.new 1 1 0) [⟨0, 1⟩, ⟨1, 1⟩] = .ok ([⟨0, 1⟩, ⟨1, 1⟩], b) ∧
        ¬ grantedWithin 0 1 [⟨0, 1⟩, ⟨1, 1⟩] ≤ 1 + 1 * 1 / pitFrequencyHz) ∧
      consumeAll (.new (2 ^ 64 - 1) 100 0) [⟨1, 1⟩] = .error .overflow := by
  refine ⟨?_, by decide⟩
  obtain ⟨b, hburst⟩ := consumeAll_burst (show 0 < 1 by decide) (show ratePerTick 1 = 1 from rfl) 0
  exact ⟨b, hburst, by decide⟩

end MerlionKernel.Ratelimit
