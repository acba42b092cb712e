import MerlionKernel.Iptables.Rules
import MerlionKernel.Rust.Each

/-!
# The packet filter engine

`IptablesEngine.process_packet` of `iptables.rs`. The connection of a packet is looked up first and
entered if it is new; a packet of a known connection is accepted without a look at the rules. Only
the first packet of a connection comes to the chain of its direction.
-/

namespace MerlionKernel.Iptables

open Rust Net

/-! ### Connection tracking -/

/-- Connection tracking state. -/
inductive ConnState
  | new
  | established
  | related
  deriving DecidableEq

/-- A tracked connection. -/
structure ConntrackEntry where
  protocol : Protocol
  srcIp : Ipv4Addr
  srcPort : UInt16
  dstIp : Ipv4Addr
  dstPort : UInt16
  state : ConnState
  counters : Counters

/-- `MAX_CONNTRACK`. -/
def maxConntrack : Nat := 1024

namespace ConntrackEntry

def matchesForward (e : ConntrackEntry) (p : Packet) : Bool :=
  e.protocol = p.proto && e.srcIp = p.srcIp && e.srcPort = p.srcPort && e.dstIp = p.dstIp &&
    e.dstPort = p.dstPort

def matchesReply (e : ConntrackEntry) (p : Packet) : Bool :=
  e.protocol = p.proto && e.dstIp = p.srcIp && e.dstPort = p.srcPort && e.srcIp = p.dstIp &&
    e.srcPort = p.dstPort

/-- The packet belongs to the tracked connection, in either direction. -/
def Matches (e : ConntrackEntry) (p : Packet) : Prop :=
  e.matchesForward p = true ∨ e.matchesReply p = true

/-- Count another packet in the direction of the first one. -/
def seen (e : ConntrackEntry) (p : Packet) : Exec ConntrackEntry := do
  let counters ← e.counters.count p
  return { e with counters, state := if e.state = .new then .established else e.state }

/-- Count a packet in the other direction. -/
def replied (e : ConntrackEntry) (p : Packet) : Exec ConntrackEntry := do
  let counters ← e.counters.count p
  return { e with counters, state := .established }

/-- The entry of a connection after its first packet. -/
def opened (p : Packet) : ConntrackEntry where
  protocol := p.proto
  srcIp := p.srcIp
  srcPort := p.srcPort
  dstIp := p.dstIp
  dstPort := p.dstPort
  state := .new
  counters := ⟨1, p.pktLen.toNat⟩

end ConntrackEntry

/-- Look up or create the entry of a packet. -/
def track (entries : List ConntrackEntry) (p : Packet) :
    Exec (ConnState × List ConntrackEntry) := do
  match ← changeFirst (·.matchesForward p) (·.seen p) entries with
  | (some entry, entries) => return (entry.state, entries)
  | (none, _) =>
    match ← changeFirst (·.matchesReply p) (·.replied p) entries with
    | (some _, entries) => return (.established, entries)
    | (none, _) =>
      if entries.length < maxConntrack then return (.new, entries ++ [.opened p])
      else return (.new, entries)

/-- Every lookup is answered while the counters have room, and the answer is that the connection
is new exactly when no entry matches. -/
theorem track_returns {entries : List ConntrackEntry} {p : Packet} {total : Counters}
    (hwithin : ∀ e ∈ entries, e.counters.Within total) (hroom : total.HasRoom p) :
    Returns (track entries p) fun r =>
      (r.1 = .new ↔ ∀ e ∈ entries, ¬ e.Matches p) ∧
        ∀ e ∈ r.2, e.counters.Within (total.counted p) := by
  have hcount : ∀ e ∈ entries, e.counters.count p = .ok (e.counters.counted p) := fun e he =>
    Counters.count_eq_ok ((hwithin e he).hasRoom hroom)
  have hlater : ∀ e ∈ entries, e.counters.Within (total.counted p) := fun e he =>
    (hwithin e he).later p
  unfold track
  rw [changeFirst_eq_ok (g := fun e => { e with
    counters := e.counters.counted p,
    state := if e.state = .new then .established else e.state })
    (fun e he => by rw [ConntrackEntry.seen, hcount e he]; rfl), ok_bind]
  cases hforward : entries.find? (·.matchesForward p) with
  | some entry =>
    refine .ok ⟨?_, ?_⟩
    · have hmem := List.mem_of_find?_eq_some hforward
      have hmatch := List.find?_some hforward
      refine iff_of_false ?_ fun h => h entry hmem (.inl hmatch)
      dsimp only
      split_ifs with hnew
      · decide
      · exact hnew
    · exact forall_mem_modifyFirst hlater fun e he => (hwithin e he).counted p
  | none =>
    rw [List.find?_eq_none] at hforward
    dsimp only [Option.map_none]
    rw [changeFirst_eq_ok (g := fun e => { e with
      counters := e.counters.counted p, state := .established })
      (fun e he => by rw [ConntrackEntry.replied, hcount e he]; rfl), ok_bind]
    cases hreply : entries.find? (·.matchesReply p) with
    | some entry =>
      refine .ok ⟨?_, ?_⟩
      · have hmem := List.mem_of_find?_eq_some hreply
        have hmatch := List.find?_some hreply
        exact iff_of_false (by dsimp only; decide) fun h => h entry hmem (.inr hmatch)
      · exact forall_mem_modifyFirst hlater fun e he => (hwithin e he).counted p
    | none =>
      rw [List.find?_eq_none] at hreply
      have hno : ∀ e ∈ entries, ¬ e.Matches p := fun e he h =>
        h.elim (hforward e he) (hreply e he)
      dsimp only [Option.map_none]
      split_ifs
      · refine .ok ⟨iff_of_true rfl hno, ?_⟩
        intro e he
        rcases List.mem_append.mp he with he | he
        · exact hlater e he
        · rw [List.mem_singleton.mp he]
          exact ⟨Nat.le_add_left _ _, Nat.le_add_left _ _⟩
      · exact .ok ⟨iff_of_true rfl hno, hlater⟩

/-! ### The engine -/

/-- A NAT translation. -/
structure NatMapping where
  originalSrcIp : Ipv4Addr
  originalSrcPort : UInt16
  translatedSrcIp : Ipv4Addr
  translatedSrcPort : UInt16
  dstIp : Ipv4Addr
  dstPort : UInt16
  protocol : Protocol

/-- Port forwarding rule. -/
structure PortForward where
  protocol : Protocol
  externalPort : UInt16
  internalIp : Ipv4Addr
  internalPort : UInt16
  counters : Counters

/-- `MAX_NAT_MAPPINGS`. -/
def maxNatMappings : Nat := 256

structure IptablesEngine where
  input : RuleChain
  output : RuleChain
  forward : RuleChain
  prerouting : RuleChain
  postrouting : RuleChain
  conntrack : List ConntrackEntry
  natMappings : List NatMapping
  portForwards : List PortForward
  masqueradeIp : Ipv4Addr
  nextNatPort : UInt16
  total : Counters
  accepted : Nat
  dropped : Nat
  rejected : Nat
  logged : Nat

/-- Count a packet for an external port. -/
def PortForward.count (pf : PortForward) (p : Packet) : Exec PortForward :=
  if pf.protocol = p.proto ∧ pf.externalPort = p.dstPort then do
    return { pf with counters := ← pf.counters.count p }
  else return pf

namespace IptablesEngine

def new : IptablesEngine where
  input := .new .accept
  output := .new .accept
  forward := .new .drop
  prerouting := .new .accept
  postrouting := .new .accept
  conntrack := []
  natMappings := []
  portForwards := []
  masqueradeIp := ⟨10, 0, 2, 15⟩
  nextNatPort := 40000
  total := .zero
  accepted := 0
  dropped := 0
  rejected := 0
  logged := 0

/-- The next port for a translated connection. -/
def allocNatPort (e : IptablesEngine) : UInt16 × IptablesEngine :=
  (e.nextNatPort,
    { e with nextNatPort := if e.nextNatPort ≥ 60000 then 40000 else e.nextNatPort + 1 })

/-- Enter a translation while the table has room. -/
def addMapping (e : IptablesEngine) (p : Packet) : IptablesEngine :=
  if e.natMappings.length < maxNatMappings then
    let (translatedPort, e) := e.allocNatPort
    { e with natMappings := e.natMappings ++ [{
        originalSrcIp := p.srcIp
        originalSrcPort := p.srcPort
        translatedSrcIp := e.masqueradeIp
        translatedSrcPort := translatedPort
        dstIp := p.dstIp
        dstPort := p.dstPort
        protocol := p.proto }] }
  else e

/-- The chain for the packet's direction. -/
def evaluateMain (e : IptablesEngine) (p : Packet) : Exec (Target × IptablesEngine) :=
  match p.direction with
  | .inbound => do
    let (target, input) ← e.input.evaluate p
    return (target, { e with input })
  | .outbound => do
    let (target, output) ← e.output.evaluate p
    return (target, { e with output })
  | .forwarded => do
    let (target, forward) ← e.forward.evaluate p
    return (target, { e with forward })

/-- The POSTROUTING chain, for packets that leave. -/
def postroute (e : IptablesEngine) (p : Packet) : Exec IptablesEngine :=
  if p.direction = .outbound ∨ p.direction = .forwarded then do
    let (postTarget, postrouting) ← e.postrouting.evaluate p
    if postTarget = .masquerade ∨ postTarget = .snat then
      return ({ e with postrouting }).addMapping p
    else return { e with postrouting }
  else return e

/-- Count a verdict. -/
def tally (e : IptablesEngine) : Target → Exec IptablesEngine
  | .drop => do return { e with dropped := ← u64 (e.dropped + 1) }
  | .reject => do return { e with rejected := ← u64 (e.rejected + 1) }
  | .log => do return { e with logged := ← u64 (e.logged + 1) }
  | .accept | .snat | .dnat | .masquerade | .redirect => do
    return { e with accepted := ← u64 (e.accepted + 1) }

/-- The chains, for a packet of a new connection. -/
def filter (forwarding : Bool) (e : IptablesEngine) (p : Packet) :
    Exec (Target × IptablesEngine) := do
  let (_, prerouting) ← e.prerouting.evaluate p
  let portForwards ← each (·.count p) e.portForwards
  let e := { e with prerouting, portForwards }
  if p.direction = .forwarded ∧ forwarding = false then
    return (.drop, { e with dropped := ← u64 (e.dropped + 1) })
  else do
    let (target, e) ← e.evaluateMain p
    let e ← e.postroute p
    return (target, ← e.tally target)

/-- Process a packet; `forwarding` is the flag `IP_FORWARDING`. -/
def processPacket (forwarding : Bool) (e : IptablesEngine) (p : Packet) :
    Exec (Target × IptablesEngine) := do
  let total ← e.total.count p
  let (connState, conntrack) ← track e.conntrack p
  let e := { e with total, conntrack }
  if connState = .established ∨ connState = .related then
    return (.accept, { e with accepted := ← u64 (e.accepted + 1) })
  else e.filter forwarding p

/-! ### What becomes of a packet -/

/-- What the chain for the packet's direction decides; a packet is not forwarded while forwarding
is off. -/
def verdict (forwarding : Bool) (e : IptablesEngine) (p : Packet) : Target :=
  match p.direction with
  | .inbound => e.input.decision p
  | .outbound => e.output.decision p
  | .forwarded => if forwarding then e.forward.decision p else .drop

/-- No counter of the tables and the chains is ahead of `total`. -/
structure Covered (e : IptablesEngine) (total : Counters) : Prop where
  input : e.input.Within total
  output : e.output.Within total
  forward : e.forward.Within total
  prerouting : e.prerouting.Within total
  postrouting : e.postrouting.Within total
  conntrack : ∀ entry ∈ e.conntrack, entry.counters.Within total
  portForwards : ∀ pf ∈ e.portForwards, pf.counters.Within total

/-- The verdicts counted are at most `n` of each kind. -/
structure Tallied (e : IptablesEngine) (n : Nat) : Prop where
  accepted : e.accepted ≤ n
  dropped : e.dropped ≤ n
  rejected : e.rejected ≤ n
  logged : e.logged ≤ n

/-- No counter is ahead of the engine's own. -/
structure Bounded (e : IptablesEngine) : Prop where
  covered : e.Covered e.total
  tallied : e.Tallied e.total.packets

/-- The two engines decide alike. -/
def SameRules (e e' : IptablesEngine) : Prop :=
  ∀ forwarding p, e'.verdict forwarding p = e.verdict forwarding p

/-- The engine while it processes a packet: its total is counted, and the verdict is not yet. -/
structure Pending (before : Counters) (p : Packet) (e : IptablesEngine) : Prop where
  total : e.total = before.counted p
  covered : e.Covered (before.counted p)
  tallied : e.Tallied before.packets

section Processing

variable {before : Counters} {p : Packet} {e : IptablesEngine} (hroom : before.HasRoom p)

include hroom in
/-- Counting the verdict leaves no counter ahead of the total. -/
theorem tally_returns (h : Pending before p e) (target : Target) :
    Returns (e.tally target) fun e' => e'.Bounded ∧ SameRules e e' := by
  have hpackets := hroom.1
  obtain ⟨htotal, ⟨hin, hout, hfwd, hpre, hpost, hconn, hpf⟩, ⟨ha, hd, hr, hl⟩⟩ := h
  have htotal' : e.total.packets = before.packets + 1 := by rw [htotal]; rfl
  rw [← htotal] at hin hout hfwd hpre hpost hconn hpf
  cases target <;>
  · rw [tally, u64_eq_ok (by omega)]
    refine .ok ⟨⟨⟨hin, hout, hfwd, hpre, hpost, hconn, hpf⟩, ⟨?_, ?_, ?_, ?_⟩⟩, fun _ _ => rfl⟩ <;>
      dsimp only <;> omega

/-- A translation changes no chain and no counter. -/
theorem Pending.addMapping (h : Pending before p e) :
    Pending before p (e.addMapping p) ∧ SameRules e (e.addMapping p) := by
  unfold IptablesEngine.addMapping
  obtain ⟨htotal, ⟨hin, hout, hfwd, hpre, hpost, hconn, hpf⟩, ⟨ha, hd, hr, hl⟩⟩ := h
  split_ifs
  · exact ⟨⟨htotal, ⟨hin, hout, hfwd, hpre, hpost, hconn, hpf⟩, ⟨ha, hd, hr, hl⟩⟩, fun _ _ => rfl⟩
  · exact ⟨⟨htotal, ⟨hin, hout, hfwd, hpre, hpost, hconn, hpf⟩, ⟨ha, hd, hr, hl⟩⟩, fun _ _ => rfl⟩

include hroom

theorem postroute_returns (h : Pending before p e) (hpost : e.postrouting.Within before) :
    Returns (e.postroute p) fun e' => Pending before p e' ∧ SameRules e e' := by
  unfold postroute
  by_cases hleaves : p.direction = .outbound ∨ p.direction = .forwarded
  · rw [if_pos hleaves, RuleChain.evaluate_eq_ok hpost hroom, ok_bind]
    obtain ⟨htotal, ⟨hin, hout, hfwd, hpre, -, hconn, hpf⟩, htallied⟩ := h
    have hcounted : Pending before p { e with postrouting := e.postrouting.counted p } :=
      ⟨htotal, ⟨hin, hout, hfwd, hpre, hpost.counted p, hconn, hpf⟩,
        ⟨htallied.accepted, htallied.dropped, htallied.rejected, htallied.logged⟩⟩
    dsimp only
    split_ifs
    · exact .ok hcounted.addMapping
    · exact .ok ⟨hcounted, fun _ _ => rfl⟩
  · rw [if_neg hleaves]
    exact .ok ⟨h, fun _ _ => rfl⟩

/-- The chain of the direction returns its decision. -/
theorem evaluateMain_returns (h : Pending before p e) (hin : e.input.Within before)
    (hout : e.output.Within before) (hfwd : e.forward.Within before) {forwarding : Bool}
    (hon : ¬ (p.direction = .forwarded ∧ forwarding = false)) :
    Returns (e.evaluateMain p) fun r =>
      r.1 = e.verdict forwarding p ∧ Pending before p r.2 ∧ SameRules e r.2 ∧
        r.2.postrouting = e.postrouting := by
  obtain ⟨htotal, ⟨hin', hout', hfwd', hpre, hpost, hconn, hpf⟩, ⟨ha, hd, hr, hl⟩⟩ := h
  unfold evaluateMain verdict
  cases hdir : p.direction with
  | inbound =>
    dsimp only
    rw [RuleChain.evaluate_eq_ok hin hroom, ok_bind]
    refine .ok ⟨rfl, ⟨htotal, ⟨hin.counted p, hout', hfwd', hpre, hpost, hconn, hpf⟩,
      ⟨ha, hd, hr, hl⟩⟩, fun forwarding q => ?_, rfl⟩
    simp only [verdict, RuleChain.decision_counted]
  | outbound =>
    dsimp only
    rw [RuleChain.evaluate_eq_ok hout hroom, ok_bind]
    refine .ok ⟨rfl, ⟨htotal, ⟨hin', hout.counted p, hfwd', hpre, hpost, hconn, hpf⟩,
      ⟨ha, hd, hr, hl⟩⟩, fun forwarding q => ?_, rfl⟩
    simp only [verdict, RuleChain.decision_counted]
  | forwarded =>
    have hforwarding : forwarding = true := by
      cases forwarding with
      | true => rfl
      | false => exact absurd ⟨hdir, rfl⟩ hon
    dsimp only
    rw [RuleChain.evaluate_eq_ok hfwd hroom, ok_bind]
    refine .ok ⟨?_, ⟨htotal, ⟨hin', hout', hfwd.counted p, hpre, hpost, hconn, hpf⟩,
      ⟨ha, hd, hr, hl⟩⟩, fun forwarding q => ?_, rfl⟩
    · rw [if_pos hforwarding]
    · simp only [verdict, RuleChain.decision_counted]

theorem count_portForward_returns {pf : PortForward} (h : pf.counters.Within before) :
    Returns (pf.count p) fun pf' => pf'.counters.Within (before.counted p) := by
  unfold PortForward.count
  split_ifs
  · rw [Counters.count_eq_ok (h.hasRoom hroom)]
    exact .ok (h.counted p)
  · exact .ok (h.later p)

/-- A new packet is decided by the chain of its direction. -/
theorem filter_returns (h : e.Covered before) (htallied : e.Tallied before.packets)
    {conntrack : List ConntrackEntry}
    (hconn : ∀ entry ∈ conntrack, entry.counters.Within (before.counted p)) (forwarding : Bool) :
    Returns ({ e with total := before.counted p, conntrack }.filter forwarding p) fun r =>
      r.1 = e.verdict forwarding p ∧ r.2.Bounded ∧ SameRules e r.2 := by
  obtain ⟨hin, hout, hfwd, hpre, hpost, -, hpf⟩ := h
  obtain ⟨ha, hd, hr, hl⟩ := htallied
  obtain ⟨portForwards, heach, hpf'⟩ :=
    each_returns fun pf hmem => count_portForward_returns hroom (hpf pf hmem)
  rw [IptablesEngine.filter]
  dsimp only
  rw [RuleChain.evaluate_eq_ok hpre hroom, ok_bind, heach, ok_bind]
  dsimp only
  -- the engine after the chain and the table that every new packet comes to
  have hpending : Pending before p { e with
      total := before.counted p, conntrack, prerouting := e.prerouting.counted p,
      portForwards } :=
    ⟨rfl, ⟨hin.later p, hout.later p, hfwd.later p, hpre.counted p, hpost.later p, hconn, hpf'⟩,
      ⟨ha, hd, hr, hl⟩⟩
  by_cases hoff : p.direction = .forwarded ∧ forwarding = false
  · rw [if_pos hoff]
    obtain ⟨e', htally, hbounded, hsame⟩ := tally_returns hroom hpending .drop
    obtain ⟨n, hn, heq⟩ := bind_eq_ok_iff.mp htally
    cases heq
    rw [hn]
    refine .ok ⟨?_, hbounded, hsame⟩
    rw [verdict, hoff.1, hoff.2]
    rfl
  · rw [if_neg hoff]
    obtain ⟨⟨target, e₁⟩, hmain, htarget, hpending₁, hsame₁, hpost₁⟩ :=
      evaluateMain_returns hroom hpending hin hout hfwd hoff
    have hpost₁' : e₁.postrouting.Within before := by
      dsimp only at hpost₁
      rw [hpost₁]
      exact hpost
    obtain ⟨e₂, hroute, hpending₂, hsame₂⟩ := postroute_returns hroom hpending₁ hpost₁'
    obtain ⟨e₃, htally, hbounded, hsame₃⟩ := tally_returns hroom hpending₂ target
    dsimp only at htarget hsame₁
    rw [hmain, ok_bind]
    dsimp only
    rw [hroute, ok_bind, htally]
    exact .ok ⟨htarget, hbounded, fun f q => (hsame₃ f q).trans ((hsame₂ f q).trans (hsame₁ f q))⟩

end Processing

theorem Covered.later {e : IptablesEngine} {total : Counters} (h : e.Covered total)
    (p : Packet) : e.Covered (total.counted p) where
  input := h.input.later p
  output := h.output.later p
  forward := h.forward.later p
  prerouting := h.prerouting.later p
  postrouting := h.postrouting.later p
  conntrack := fun entry hmem => (h.conntrack entry hmem).later p
  portForwards := fun pf hmem => (h.portForwards pf hmem).later p

/-- While the counters have room, a packet of a tracked connection is accepted, and the chain of
its direction decides about any other one. The rules stay as they are. -/
theorem processPacket_returns {e : IptablesEngine} (h : e.Bounded) {p : Packet}
    (hroom : e.total.HasRoom p) (forwarding : Bool) :
    Returns (e.processPacket forwarding p) fun r =>
      ((∃ entry ∈ e.conntrack, entry.Matches p) → r.1 = .accept) ∧
        ((∀ entry ∈ e.conntrack, ¬ entry.Matches p) → r.1 = e.verdict forwarding p) ∧
        r.2.Bounded ∧ SameRules e r.2 := by
  obtain ⟨⟨state, conntrack⟩, htrack, hnew, hconn⟩ := track_returns h.covered.conntrack hroom
  dsimp only at hnew hconn
  rw [processPacket, Counters.count_eq_ok hroom, ok_bind, htrack, ok_bind]
  dsimp only
  by_cases hknown : state = .established ∨ state = .related
  · -- the packet belongs to a tracked connection
    have hsome : ¬ ∀ entry ∈ e.conntrack, ¬ entry.Matches p := by
      intro hall
      rw [hnew.mpr hall] at hknown
      exact absurd hknown (by decide)
    have hpackets := hroom.1
    obtain ⟨ha, hd, hr, hl⟩ := h.tallied
    have hcovered := h.covered.later p
    rw [if_pos hknown, u64_eq_ok (by omega)]
    refine .ok ⟨fun _ => rfl, fun hall => absurd hall hsome,
      ⟨⟨hcovered.input, hcovered.output, hcovered.forward, hcovered.prerouting,
        hcovered.postrouting, hconn, hcovered.portForwards⟩, ?_⟩, fun _ _ => rfl⟩
    exact ⟨Nat.add_le_add_right ha 1, Nat.le_succ_of_le hd, Nat.le_succ_of_le hr,
      Nat.le_succ_of_le hl⟩
  · have hstate : state = .new := by
      cases state with
      | new => rfl
      | established => exact absurd (.inl rfl) hknown
      | related => exact absurd (.inr rfl) hknown
    have hall := hnew.mp hstate
    rw [if_neg hknown]
    refine (filter_returns hroom h.covered h.tallied hconn forwarding).mono ?_
    rintro ⟨target, e'⟩ ⟨htarget, hbounded, hsame⟩
    refine ⟨?_, fun _ => htarget, hbounded, hsame⟩
    rintro ⟨entry, hmem, hmatch⟩
    exact absurd hmatch (hall entry hmem)

/-- A packet that is processed had room in the counters. -/
theorem hasRoom_of_processPacket {e e' : IptablesEngine} {p : Packet} {forwarding : Bool}
    {target : Target} (h : e.processPacket forwarding p = .ok (target, e')) :
    e.total.HasRoom p := by
  obtain ⟨total, htotal, -⟩ := bind_eq_ok_iff.mp h
  exact Counters.hasRoom_of_count htotal

end IptablesEngine

end MerlionKernel.Iptables
