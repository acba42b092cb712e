import MerlionKernel.Rust.Map
import MerlionKernel.Theory.Run

/-!
# Reference counts of copy-on-write frames

`cow.rs` counts the processes that share a frame. An entry of the map is made when a frame is
shared for the first time, with the count 2, and dropped when the count falls to 1, so that a
frame without an entry belongs to one process. Addresses are rounded down to their page.

The count of a page is one more than the number of times it was shared and not yet unshared.
It is a `u32`: sharing a page once more at `u32::MAX` overflows, and this is the only way in
which the calls fail to track the sharing.
-/

namespace MerlionKernel.Cow

open Rust Theory

/-- The frames that are shared, with the number of processes that share them. -/
structure CowTracker where
  refCounts : BTreeMap UInt64 Nat

/-- `frame_addr & !0xFFF`. -/
def aligned (frameAddr : UInt64) : UInt64 := frameAddr &&& ~~~0xFFF

namespace CowTracker

/-- No frame is shared. -/
def new : CowTracker := { refCounts := .new }

/-- Count one more process. -/
def shareFrame (self : CowTracker) (frameAddr : UInt64) : Exec CowTracker := do
  let count := (self.refCounts.get (aligned frameAddr)).getD 1
  let count ← u32 (count + 1)
  return { refCounts := self.refCounts.insert (aligned frameAddr) count }

/-- More than one process shares the frame. -/
def isShared (self : CowTracker) (frameAddr : UInt64) : Bool :=
  match self.refCounts.get (aligned frameAddr) with
  | some count => count > 1
  | none => false

/-- Count one process less; returns whether the frame is no longer shared. -/
def unshareFrame (self : CowTracker) (frameAddr : UInt64) : Bool × CowTracker :=
  match self.refCounts.get (aligned frameAddr) with
  | some count =>
    if count - 1 ≤ 1 then (true, { refCounts := self.refCounts.remove (aligned frameAddr) })
    else (false, { refCounts := self.refCounts.insert (aligned frameAddr) (count - 1) })
  | none => (false, self)

end CowTracker

/-! ### Pages -/

/-- The number of the page that an address lies in. -/
def page (frameAddr : UInt64) : Nat := frameAddr.toNat / 4096

/-- Clearing the low bits is a shift to the right and back. -/
theorem and_not_low (x : BitVec 64) : x &&& ~~~0xFFF#64 = (x >>> 12) <<< 12 := by
  apply BitVec.eq_of_getLsbD_eq
  intro i hi
  have hmask : ∀ i < 64, (~~~0xFFF#64).getLsbD i = decide (12 ≤ i) := by decide
  rw [BitVec.getLsbD_and, hmask i hi, BitVec.getLsbD_shiftLeft, BitVec.getLsbD_ushiftRight]
  by_cases hlow : 12 ≤ i
  · simp [hlow, hi, show ¬ i < 12 by omega]
  · simp [hlow]

/-- The aligned address is the first one of its page. -/
theorem toNat_aligned (a : UInt64) : (aligned a).toNat = page a * 4096 := by
  have hlt := a.toBitVec.isLt
  rw [aligned, page, ← UInt64.toNat_toBitVec, ← UInt64.toNat_toBitVec]
  show (a.toBitVec &&& ~~~0xFFF#64).toNat = _
  rw [and_not_low, BitVec.toNat_shiftLeft, BitVec.toNat_ushiftRight, Nat.shiftRight_eq_div_pow,
    Nat.shiftLeft_eq]
  omega

theorem aligned_eq_iff {a b : UInt64} : aligned a = aligned b ↔ page a = page b := by
  rw [← UInt64.toNat_inj, toNat_aligned, toNat_aligned]
  omega

/-! ### Calls -/

/-- The tracker, with the number of shares and of unshares of each page. -/
structure System where
  tracker : CowTracker
  shares : Nat → Nat
  unshares : Nat → Nat

/-- Nothing was shared. -/
def System.start : System := { tracker := .new, shares := fun _ => 0, unshares := fun _ => 0 }

/-- The calls. -/
inductive Call
  | share (frameAddr : UInt64)
  | unshare (frameAddr : UInt64)

/-- One more for a page. -/
def countUp (counts : Nat → Nat) (p : Nat) : Nat → Nat :=
  Function.update counts p (counts p + 1)

/-- Perform a call and count it. -/
def step (s : System) : Call → Exec System
  | .share a => do
    let tracker ← s.tracker.shareFrame a
    return { s with tracker, shares := countUp s.shares (page a) }
  | .unshare a =>
    return { s with
      tracker := (s.tracker.unshareFrame a).2, unshares := countUp s.unshares (page a) }

/-- An unshare undoes an earlier share of the page. -/
def Matched (s : System) : Call → Prop
  | .share _ => True
  | .unshare a => s.unshares (page a) < s.shares (page a)

/-- A share finds a count below `u32::MAX`. -/
def HasRoom (s : System) : Call → Prop
  | .share a => s.shares (page a) < s.unshares (page a) + (2 ^ 32 - 2)
  | .unshare _ => True

/-- Two trackers give the same answers about an address. -/
def SameAnswers (t t' : CowTracker) (a : UInt64) : Prop :=
  t'.isShared a = t.isShared a ∧ (t'.unshareFrame a).1 = (t.unshareFrame a).1

/-- A page is shared when it was shared more often than unshared; the unshare that makes the
numbers equal, and no other, answers `true`; and calls on one page do not change the answers
about another. -/
def Accurate (s : System) : Prop :=
  ∀ a, (s.tracker.isShared a = true ↔ s.unshares (page a) < s.shares (page a)) ∧
    (Matched s (.unshare a) →
      ((s.tracker.unshareFrame a).1 = true ↔ s.unshares (page a) + 1 = s.shares (page a))) ∧
    ∀ b, page b ≠ page a →
      (∀ tracker, s.tracker.shareFrame a = .ok tracker → SameAnswers s.tracker tracker b) ∧
        SameAnswers s.tracker (s.tracker.unshareFrame a).2 b

/-! ### The encoding of the counts -/

/-- The entry of a page: none, unless the page was shared more often than unshared. -/
def entry (shares unshares : Nat) : Option Nat :=
  if unshares < shares then some (shares - unshares + 1) else none

/-- The entries of the map are those of the true counts. -/
def Tracks (s : System) : Prop :=
  ∀ a, s.unshares (page a) ≤ s.shares (page a) ∧
    s.tracker.refCounts.get (aligned a) = entry (s.shares (page a)) (s.unshares (page a))

theorem tracks_start : Tracks .start := fun _ => ⟨Nat.le_refl _, rfl⟩

/-- Answers depend on the entry of the page only. -/
theorem sameAnswers_of_get {t t' : CowTracker} {a : UInt64}
    (h : t'.refCounts.get (aligned a) = t.refCounts.get (aligned a)) : SameAnswers t t' a := by
  constructor
  · simp only [CowTracker.isShared, h]
  · simp only [CowTracker.unshareFrame, h]
    cases t.refCounts.get (aligned a) with
    | none => rfl
    | some count =>
      dsimp only
      split_ifs
      · rfl
      · rfl

theorem isShared_iff {s : System} (h : Tracks s) (a : UInt64) :
    s.tracker.isShared a = true ↔ s.unshares (page a) < s.shares (page a) := by
  rw [CowTracker.isShared, (h a).2, entry]
  by_cases hlt : s.unshares (page a) < s.shares (page a)
  · simp [hlt, Nat.sub_pos_of_lt hlt]
  · simp [hlt]

theorem unshareFrame_iff {s : System} (h : Tracks s) {a : UInt64}
    (hmatched : Matched s (.unshare a)) :
    (s.tracker.unshareFrame a).1 = true ↔ s.unshares (page a) + 1 = s.shares (page a) := by
  have hlt : s.unshares (page a) < s.shares (page a) := hmatched
  rw [CowTracker.unshareFrame, (h a).2, entry, if_pos hlt]
  dsimp only
  split_ifs with hone
  · simp only [true_iff]
    omega
  · simp only [false_iff]
    omega

/-- A call on one page leaves the entries of the others alone. -/
theorem get_shareFrame_of_ne {t t' : CowTracker} {a b : UInt64} (h : t.shareFrame a = .ok t')
    (hne : page b ≠ page a) : t'.refCounts.get (aligned b) = t.refCounts.get (aligned b) := by
  obtain ⟨count, -, h⟩ := bind_eq_ok_iff.mp h
  cases h
  exact BTreeMap.get_insert_of_ne fun heq => hne (aligned_eq_iff.mp heq)

theorem get_unshareFrame_of_ne (t : CowTracker) {a b : UInt64} (hne : page b ≠ page a) :
    (t.unshareFrame a).2.refCounts.get (aligned b) = t.refCounts.get (aligned b) := by
  have hkey : aligned b ≠ aligned a := fun heq => hne (aligned_eq_iff.mp heq)
  unfold CowTracker.unshareFrame
  split
  · split_ifs
    · exact BTreeMap.get_remove_of_ne hkey
    · exact BTreeMap.get_insert_of_ne hkey
  · rfl

theorem Tracks.accurate {s : System} (h : Tracks s) : Accurate s := by
  intro a
  refine ⟨isShared_iff h a, unshareFrame_iff h, fun b hb => ⟨fun tracker hshare => ?_, ?_⟩⟩
  · exact sameAnswers_of_get (get_shareFrame_of_ne hshare hb)
  · exact sameAnswers_of_get (get_unshareFrame_of_ne s.tracker hb)

/-! ### The calls keep the encoding -/

/-- The count that a share finds, whether there is an entry or not. -/
theorem entry_getD (shares unshares : Nat) :
    (entry shares unshares).getD 1 = shares - unshares + 1 := by
  unfold entry
  split_ifs with hlt
  · rfl
  · show 1 = shares - unshares + 1
    omega

/-- A share with room for it adds one to the count of its page. -/
theorem share_returns {s : System} (h : Tracks s) {a : UInt64} (hroom : HasRoom s (.share a)) :
    Returns (step s (.share a)) fun s' => Tracks s' ∧
      s'.shares = countUp s.shares (page a) ∧ s'.unshares = s.unshares := by
  have hlt : s.shares (page a) < s.unshares (page a) + (2 ^ 32 - 2) := hroom
  have hle := (h a).1
  have hshare : s.tracker.shareFrame a = .ok ⟨s.tracker.refCounts.insert (aligned a)
      (s.shares (page a) - s.unshares (page a) + 1 + 1)⟩ := by
    rw [CowTracker.shareFrame, (h a).2, entry_getD, u32_eq_ok (by omega)]
    rfl
  simp only [step, hshare, ok_bind]
  refine .ok ⟨fun b => ?_, rfl, rfl⟩
  by_cases hb : page b = page a
  · rw [hb, aligned_eq_iff.mpr hb, BTreeMap.get_insert_self]
    simp only [countUp, Function.update_self, entry]
    rw [if_pos (by omega)]
    exact ⟨by omega, congrArg some (by omega)⟩
  · rw [BTreeMap.get_insert_of_ne fun heq => hb (aligned_eq_iff.mp heq)]
    simp only [countUp, Function.update_of_ne hb]
    exact h b

/-- A share without room for it overflows. -/
theorem share_overflows {s : System} (h : Tracks s) {a : UInt64} (hroom : ¬ HasRoom s (.share a)) :
    step s (.share a) = .error .overflow := by
  have hge : ¬ s.shares (page a) < s.unshares (page a) + (2 ^ 32 - 2) := hroom
  have hfull : ¬ s.shares (page a) - s.unshares (page a) + 1 + 1 < 2 ^ 32 := by omega
  rw [step, CowTracker.shareFrame, (h a).2, entry_getD, u32, if_neg hfull]
  rfl

/-- A matched unshare takes one from the count of its page. -/
theorem unshare_tracks {s : System} (h : Tracks s) {a : UInt64}
    (hmatched : Matched s (.unshare a)) : Returns (step s (.unshare a)) Tracks := by
  have hlt : s.unshares (page a) < s.shares (page a) := hmatched
  refine .ok fun b => ?_
  by_cases hb : page b = page a
  · rw [hb, aligned_eq_iff.mpr hb]
    simp only [countUp, Function.update_self, CowTracker.unshareFrame, (h a).2, entry, if_pos hlt]
    refine ⟨hlt, ?_⟩
    split_ifs with hone hmore hmore
    · omega
    · exact BTreeMap.get_remove_self
    · rw [BTreeMap.get_insert_self]
      exact congrArg some (by omega)
    · omega
  · rw [get_unshareFrame_of_ne s.tracker hb]
    simp only [countUp, Function.update_of_ne hb]
    exact h b

theorem step_tracks {s : System} {call : Call} (h : Tracks s) (hmatched : Matched s call)
    (hroom : HasRoom s call) : Returns (step s call) Tracks := by
  cases call with
  | share a => exact (share_returns h hroom).mono fun _ hs => hs.1
  | unshare a => exact unshare_tracks h hmatched

theorem step_ne_ok {s s' : System} {call : Call} (h : Tracks s) (hroom : ¬ HasRoom s call) :
    step s call ≠ .ok s' := by
  cases call with
  | share a =>
    rw [share_overflows h hroom]
    exact nofun
  | unshare a => exact absurd trivial hroom

/-- A matched call that returns had room. -/
theorem Tracks.step {s s' : System} {call : Call} (h : Tracks s) (hmatched : Matched s call)
    (hstep : step s call = .ok s') : Tracks s' := by
  have hroom : HasRoom s call := by
    by_contra hfull
    exact step_ne_ok h hfull hstep
  exact (step_tracks h hmatched hroom).elim hstep

/-! ### Runs -/

/-- For calls in which no page is unshared more often than it was shared: all calls return
and the answers are accurate throughout exactly when no page is shared at a moment when it
was already shared 2^32 - 2 times more often than unshared. -/
theorem accurate_iff_hasRoom (calls : List Call) (hmatched : Guarded step Matched .start calls) :
    ((∃ s, run step .start calls = .ok s) ∧ Always step Accurate .start calls) ↔
      Guarded step HasRoom .start calls := by
  have halways : Always step Accurate .start calls := by
    rintro done ⟨rest, rfl⟩ s hrun
    exact (run_invariant_of_guarded Tracks (fun _ _ _ h hm hs => h.step hm hs) tracks_start
      hmatched.append_left hrun).accurate
  rw [and_iff_left halways]
  exact returns_iff_guarded Tracks (fun _ _ h hm hr => step_tracks h hm hr)
    (fun _ _ _ h hr => step_ne_ok h hr) tracks_start hmatched

/-- The theorem for a page that is shared twice and unshared twice, through two addresses. -/
theorem accurate_iff_hasRoom_twice :
    ((∃ s, run step .start [.share 0x1000, .share 0x1008, .unshare 0x1000, .unshare 0x1ff8] =
        .ok s) ∧
      Always step Accurate .start
        [.share 0x1000, .share 0x1008, .unshare 0x1000, .unshare 0x1ff8]) ↔
      Guarded step HasRoom .start
        [.share 0x1000, .share 0x1008, .unshare 0x1000, .unshare 0x1ff8] := by
  refine accurate_iff_hasRoom _ ⟨trivial, ?_⟩
  rintro _ ⟨⟩
  refine ⟨trivial, ?_⟩
  rintro _ ⟨⟩
  refine ⟨(by decide : 0 < 2), ?_⟩
  rintro _ ⟨⟩
  refine ⟨(by decide : 1 < 2), ?_⟩
  rintro _ ⟨⟩
  trivial

/-- Sharing one page again and again. -/
theorem run_replicate_share (a : UInt64) {n : Nat} (hn : n ≤ 2 ^ 32 - 2) :
    Returns (run step .start (List.replicate n (.share a))) fun s =>
      Tracks s ∧ s.shares (page a) = n ∧ s.unshares (page a) = 0 := by
  induction n with
  | zero => exact .ok ⟨tracks_start, rfl, rfl⟩
  | succ n ih =>
    rw [List.replicate_succ', run_append]
    refine (ih (by omega)).bind ?_
    rintro s ⟨hs, hshares, hunshares⟩
    have hroom : HasRoom s (.share a) := by
      show s.shares (page a) < s.unshares (page a) + (2 ^ 32 - 2)
      omega
    obtain ⟨s', hstep, hs', hshares', hunshares'⟩ := share_returns hs hroom
    rw [run_cons, hstep]
    refine .ok ⟨hs', ?_, ?_⟩
    · rw [hshares', countUp, Function.update_self, hshares]
    · rw [hunshares', hunshares]

/-- The page at address 0 cannot be shared 2^32 - 1 times. -/
theorem share_page_overflows :
    run step .start (List.replicate (2 ^ 32 - 1) (.share 0)) = .error .overflow := by
  obtain ⟨s, hrun, hs, hshares, hunshares⟩ := run_replicate_share 0 (Nat.le_refl (2 ^ 32 - 2))
  rw [show 2 ^ 32 - 1 = (2 ^ 32 - 2) + 1 from rfl, List.replicate_succ', run_append, hrun, ok_bind,
    run_cons, share_overflows hs]
  · rfl
  · show ¬ s.shares (page 0) < s.unshares (page 0) + (2 ^ 32 - 2)
    omega

end MerlionKernel.Cow
