import MerlionKernel.Iptables.Engine

/-!
# What a chain means

A chain is read from the top: a LOG rule that matches counts the packet and passes it on, and the
first other rule that matches decides about it; the policy decides when none does. `consult` says
this, and leaves out how the engine goes about it.

The engine stops at the first match of any kind. So its verdict is the intended one when that rule,
or the policy where none matches, accepts, drops or rejects.
-/

namespace MerlionKernel.Iptables

open Rust Net

/-! ### Intended verdicts -/

/-- The verdicts of the filter chains. -/
def Target.Filters (t : Target) : Prop := t = .accept ∨ t = .drop ∨ t = .reject

instance (t : Target) : Decidable t.Filters := by unfold Target.Filters; infer_instance

/-- The rules with the packet counted in each one that it came to and matched, and the target of the
first of them that is not LOG. -/
def consult (p : Packet) : List Rule → List Rule × Option Target
  | [] => ([], none)
  | r :: rules =>
    if r.matches p then
      if r.target = .log then
        let (rules, target) := consult p rules
        (r.counted p :: rules, target)
      else (r.counted p :: rules, some r.target)
    else
      let (rules, target) := consult p rules
      (r :: rules, target)

namespace RuleChain

/-- The rule that the packet comes to first, or the policy where there is none, accepts, drops or
rejects. -/
def Plain (c : RuleChain) (p : Packet) : Prop :=
  match c.rules.find? (·.matches p) with
  | some rule => rule.target.Filters
  | none => c.policy.Filters

/-- No rule matches, and the policy is to drop. -/
def DropsUnseen (c : RuleChain) (p : Packet) : Prop :=
  (∀ r ∈ c.rules, r.matches p = false) ∧ c.policy = .drop

theorem plain_iff (c : RuleChain) (p : Packet) : c.Plain p ↔ (c.decision p).Filters := by
  unfold Plain decision
  cases c.rules.find? (·.matches p) <;> exact Iff.rfl

end RuleChain

theorem consult_of_none {p : Packet} {rules : List Rule}
    (h : rules.find? (·.matches p) = none) : consult p rules = (rules, none) := by
  induction rules with
  | nil => rfl
  | cons r rules ih =>
    rw [List.find?_cons] at h
    cases hr : r.matches p with
    | true => simp [hr] at h
    | false =>
      rw [hr] at h
      rw [consult, if_neg (by simp [hr]), ih h]

/-- Where the first match is not LOG, it is the only rule that counts. -/
theorem consult_of_some {p : Packet} {rules : List Rule} {r : Rule}
    (h : rules.find? (·.matches p) = some r) (hlog : r.target ≠ .log) :
    consult p rules = (modifyFirst (·.matches p) (·.counted p) rules, some r.target) := by
  induction rules with
  | nil => cases h
  | cons r' rules ih =>
    rw [List.find?_cons] at h
    cases hr : r'.matches p with
    | true =>
      rw [hr] at h
      cases h
      rw [consult, if_pos hr, if_neg hlog, modifyFirst, if_pos hr]
    | false =>
      rw [hr] at h
      rw [consult, if_neg (by simp [hr]), ih h, modifyFirst, if_neg (by simp [hr])]

/-- A chain whose first match decides gives the intended verdict and counts as intended. -/
theorem RuleChain.Plain.consult_eq {c : RuleChain} {p : Packet} (h : c.Plain p) :
    (c.counted p).rules = (consult p c.rules).1 ∧
      c.decision p = (consult p c.rules).2.getD c.policy := by
  unfold Plain at h
  unfold counted decision
  cases hfind : c.rules.find? (·.matches p) with
  | none =>
    rw [consult_of_none hfind]
    exact ⟨modifyFirst_of_find?_eq_none hfind, rfl⟩
  | some r =>
    rw [hfind] at h
    have hlog : r.target ≠ .log := by
      intro hlog
      dsimp only at h
      rw [hlog] at h
      exact absurd h (by decide)
    rw [consult_of_some hfind hlog]
    exact ⟨rfl, rfl⟩

/-- A packet that some rule matches is counted somewhere. -/
theorem exists_of_consult_eq {p : Packet} {rules : List Rule} (h : (consult p rules).1 = rules) :
    ∀ r ∈ rules, r.matches p = false := by
  induction rules with
  | nil => simp
  | cons r rules ih =>
    have hcount : r.counted p ≠ r := by
      intro heq
      have hpackets := congrArg (·.counters.packets) heq
      exact absurd hpackets (Nat.succ_ne_self _)
    rw [consult] at h
    by_cases hr : r.matches p = true
    · rw [if_pos hr] at h
      split_ifs at h <;> exact absurd (List.cons.inj h).1 hcount
    · rw [if_neg hr] at h
      exact List.forall_mem_cons.mpr ⟨by simpa using hr, ih (List.cons.inj h).2⟩

/-! ### The engine -/

namespace IptablesEngine

/-- The chain for a direction. -/
def mainChain (e : IptablesEngine) : Direction → RuleChain
  | .inbound => e.input
  | .outbound => e.output
  | .forwarded => e.forward

/-- The packet gets the verdict that the chain of its direction means, this is one of the three
verdicts of a filter, and the rules of the chain count as they should. -/
def Follows (forwarding : Bool) (e : IptablesEngine) (p : Packet) : Prop :=
  Returns (e.processPacket forwarding p) fun (target, e') =>
    target = (consult p (e.mainChain p.direction).rules).2.getD (e.mainChain p.direction).policy ∧
      target.Filters ∧
      (e'.mainChain p.direction).rules = (consult p (e.mainChain p.direction).rules).1

theorem mainChain_addMapping (e : IptablesEngine) (p : Packet) (d : Direction) :
    (e.addMapping p).mainChain d = e.mainChain d := by
  unfold addMapping
  split_ifs <;> cases d <;> rfl

theorem mainChain_of_postroute {e e' : IptablesEngine} {p : Packet} (h : e.postroute p = .ok e')
    (d : Direction) : e'.mainChain d = e.mainChain d := by
  unfold postroute at h
  split_ifs at h
  · obtain ⟨⟨target, postrouting⟩, -, h⟩ := bind_eq_ok_iff.mp h
    dsimp only at h
    split_ifs at h
    · cases h
      rw [mainChain_addMapping]
      cases d <;> rfl
    · cases h
      cases d <;> rfl
  · cases h
    rfl

theorem mainChain_of_tally {e e' : IptablesEngine} {target : Target} (h : e.tally target = .ok e')
    (d : Direction) : e'.mainChain d = e.mainChain d := by
  cases target <;>
  · obtain ⟨n, -, h⟩ := bind_eq_ok_iff.mp h
    cases h
    cases d <;> rfl

theorem evaluate_of_evaluateMain {e e' : IptablesEngine} {p : Packet} {target : Target}
    (h : e.evaluateMain p = .ok (target, e')) :
    (e.mainChain p.direction).evaluate p = .ok (target, e'.mainChain p.direction) := by
  unfold evaluateMain at h
  cases hdir : p.direction <;>
  · rw [hdir] at h
    obtain ⟨⟨t, chain⟩, hchain, h⟩ := bind_eq_ok_iff.mp h
    cases h
    exact hchain

/-- A new packet is counted by the chain of its direction, unless it is not to be forwarded. -/
theorem mainChain_of_filter {forwarding : Bool} {e e' : IptablesEngine} {p : Packet}
    {target : Target} (h : e.filter forwarding p = .ok (target, e')) :
    if p.direction = .forwarded ∧ forwarding = false then
      e'.mainChain p.direction = e.mainChain p.direction
    else (e.mainChain p.direction).evaluate p = .ok (target, e'.mainChain p.direction) := by
  rw [IptablesEngine.filter] at h
  obtain ⟨⟨pre, prerouting⟩, -, h⟩ := bind_eq_ok_iff.mp h
  obtain ⟨portForwards, -, h⟩ := bind_eq_ok_iff.mp h
  dsimp only at h
  by_cases hoff : p.direction = .forwarded ∧ forwarding = false
  · rw [if_pos hoff] at h ⊢
    obtain ⟨n, -, h⟩ := bind_eq_ok_iff.mp h
    cases h
    rw [hoff.1]
    rfl
  · rw [if_neg hoff] at h ⊢
    obtain ⟨⟨t, e₁⟩, hmain, h⟩ := bind_eq_ok_iff.mp h
    obtain ⟨e₂, hroute, h⟩ := bind_eq_ok_iff.mp h
    obtain ⟨e₃, htally, h⟩ := bind_eq_ok_iff.mp h
    cases h
    rw [mainChain_of_tally htally, mainChain_of_postroute hroute]
    have heval := evaluate_of_evaluateMain hmain
    cases hdir : p.direction <;>
    · rw [hdir] at heval
      exact heval

theorem Bounded.mainChain {e : IptablesEngine} (h : e.Bounded) (d : Direction) :
    (e.mainChain d).Within e.total := by
  cases d with
  | inbound => exact h.covered.input
  | outbound => exact h.covered.output
  | forwarded => exact h.covered.forward

theorem verdict_eq (forwarding : Bool) (e : IptablesEngine) (p : Packet) :
    e.verdict forwarding p =
      if p.direction = .forwarded ∧ forwarding = false then .drop
      else (e.mainChain p.direction).decision p := by
  unfold verdict IptablesEngine.mainChain
  cases p.direction <;> cases forwarding <;> rfl

/-- What becomes of a packet of no tracked connection, as far as the chain of its direction goes. -/
theorem processPacket_untracked {e : IptablesEngine} (h : e.Bounded) {p : Packet}
    (hroom : e.total.HasRoom p) (hnew : ∀ entry ∈ e.conntrack, ¬ entry.Matches p)
    (forwarding : Bool) :
    Returns (e.processPacket forwarding p) fun (target, e') =>
      if p.direction = .forwarded ∧ forwarding = false then
        target = .drop ∧ e'.mainChain p.direction = e.mainChain p.direction
      else target = (e.mainChain p.direction).decision p ∧
        e'.mainChain p.direction = (e.mainChain p.direction).counted p := by
  obtain ⟨⟨target, e'⟩, hrun, -, hverdict, -⟩ := processPacket_returns h hroom forwarding
  refine ⟨(target, e'), hrun, ?_⟩
  have htarget := hverdict hnew
  dsimp only at htarget
  rw [verdict_eq] at htarget
  obtain ⟨total, -, hrun⟩ := bind_eq_ok_iff.mp hrun
  obtain ⟨⟨state, conntrack⟩, htrack, hrun⟩ := bind_eq_ok_iff.mp hrun
  have hstate : state = .new :=
    ((track_returns h.covered.conntrack hroom).elim htrack).1.mpr hnew
  subst hstate
  dsimp only at hrun
  rw [if_neg (by decide)] at hrun
  have hmain := mainChain_of_filter hrun
  dsimp only
  split_ifs at htarget hmain ⊢ with hoff
  · refine ⟨htarget, hmain.trans ?_⟩
    cases p.direction <;> rfl
  · have hsame : IptablesEngine.mainChain { e with total, conntrack } p.direction =
        e.mainChain p.direction := by cases p.direction <;> rfl
    rw [hsame, RuleChain.evaluate_eq_ok (h.mainChain p.direction) hroom] at hmain
    obtain ⟨rfl, hcounted⟩ := Prod.mk.inj (Except.ok.inj hmain)
    exact ⟨rfl, hcounted.symm⟩

/-- The engine follows its chains for exactly those packets whose first match, or the policy where
none matches, accepts, drops or rejects. While forwarding is off, the chain for forwarded packets
has to come to the same by its policy, since it is not consulted. -/
theorem follows_iff {e : IptablesEngine} (h : e.Bounded) {p : Packet}
    (hnew : ∀ entry ∈ e.conntrack, ¬ entry.Matches p) (forwarding : Bool) :
    e.Follows forwarding p ↔
      e.total.HasRoom p ∧
        if p.direction = .forwarded ∧ forwarding = false then
          (e.mainChain p.direction).DropsUnseen p
        else (e.mainChain p.direction).Plain p := by
  constructor
  · rintro ⟨⟨target, e'⟩, hrun, hverdict, hfilters, hrules⟩
    have hroom := hasRoom_of_processPacket hrun
    refine ⟨hroom, ?_⟩
    have hspec := (processPacket_untracked h hroom hnew forwarding).elim hrun
    dsimp only at hverdict hfilters hrules hspec
    split_ifs at hspec ⊢ with hoff
    · obtain ⟨htarget, hsame⟩ := hspec
      rw [hsame] at hrules
      have hnone := exists_of_consult_eq hrules.symm
      refine ⟨hnone, ?_⟩
      have hfind : (e.mainChain p.direction).rules.find? (·.matches p) = none :=
        List.find?_eq_none.mpr fun r hr => by simp [hnone r hr]
      rw [consult_of_none hfind, htarget] at hverdict
      exact hverdict.symm
    · rw [RuleChain.plain_iff, ← hspec.1]
      exact hfilters
  · rintro ⟨hroom, hplain⟩
    refine (processPacket_untracked h hroom hnew forwarding).mono ?_
    rintro ⟨target, e'⟩ hspec
    dsimp only at hspec ⊢
    split_ifs at hplain hspec with hoff
    · obtain ⟨hnone, hpolicy⟩ := hplain
      obtain ⟨rfl, hsame⟩ := hspec
      have hfind : (e.mainChain p.direction).rules.find? (·.matches p) = none :=
        List.find?_eq_none.mpr fun r hr => by simp [hnone r hr]
      rw [hsame, consult_of_none hfind]
      exact ⟨hpolicy.symm, .inr (.inl rfl), rfl⟩
    · obtain ⟨hrules, hdecision⟩ := hplain.consult_eq
      obtain ⟨rfl, hcounted⟩ := hspec
      rw [hcounted, hrules]
      exact ⟨hdecision, (RuleChain.plain_iff _ _).mp hplain, rfl⟩

/-- A rule of INPUT for one port and one target. -/
def portRule (target : Target) (port : UInt16) : Rule where
  target := target
  protocol := some .tcp
  srcIp := none
  srcMask := 0
  dstIp := none
  dstMask := 0
  srcPort := none
  dstPort := some port
  interface := none
  counters := .zero

/-- A new engine with these rules of INPUT. -/
def guarding (rules : List Rule) : IptablesEngine :=
  { new with input := { RuleChain.new .accept with rules := rules } }

/-- A connection attempt to port 22. -/
def attempt : Packet := ⟨.tcp, ⟨10, 0, 2, 2⟩, 4000, ⟨10, 0, 2, 15⟩, 22, .inbound, "eth0", 60⟩

/-- A packet for a port that is dropped. -/
theorem follows_dropped :
    (guarding [portRule .drop 22]).Bounded ∧
      (guarding [portRule .drop 22]).Follows false attempt := by
  have hbounded : (guarding [portRule .drop 22]).Bounded := by
    have hchain : ∀ c : RuleChain, c.total = .zero → (∀ r ∈ c.rules, r.counters = .zero) →
        c.Within Counters.zero := by
      intro c htotal hrules
      refine ⟨by rw [htotal]; exact ⟨le_rfl, le_rfl⟩, fun r hr => ?_⟩
      rw [hrules r hr]
      exact ⟨le_rfl, le_rfl⟩
    exact ⟨⟨hchain _ rfl (by simp [guarding, portRule]),
      hchain _ rfl (by simp [guarding, new, RuleChain.new]),
      hchain _ rfl (by simp [guarding, new, RuleChain.new]),
      hchain _ rfl (by simp [guarding, new, RuleChain.new]),
      hchain _ rfl (by simp [guarding, new, RuleChain.new]), by simp [guarding, new],
      by simp [guarding, new]⟩, ⟨le_rfl, le_rfl, le_rfl, le_rfl⟩⟩
  refine ⟨hbounded, (follows_iff hbounded (by simp [guarding, new]) false).mpr ⟨?_, ?_⟩⟩
  · exact ⟨by decide, by decide⟩
  · rw [if_neg (by decide)]
    exact .inr (.inl rfl)

/-- A LOG rule in front of a DROP rule lets the packet through, with the verdict LOG. -/
theorem log_is_final :
    ∃ e', (guarding [portRule .log 22, portRule .drop 22]).processPacket false attempt =
        .ok (.log, e') ∧
      (consult attempt (guarding [portRule .log 22, portRule .drop 22]).input.rules).2 =
        some .drop :=
  ⟨_, rfl, by decide⟩

end IptablesEngine

end MerlionKernel.Iptables
