import MerlionKernel.Iptables.Engine
import MerlionKernel.Theory.Run

/-!
# Denied flows

Packets reach the engine one after the other while its rules stay as they are. A packet that the
chain of its direction denies gets that verdict as long as its connection is not in the tracking
table. The engine enters the connection of every packet into the table, also of one that it then
denies; the next packet of a denied flow is therefore taken for one of an established connection,
and accepted.
-/

namespace MerlionKernel.Iptables

open Rust Net Theory

/-! ### The system -/

/-- An engine before its first packet: it has rules and policies, it tracks no connection, and its
counters are in order. -/
structure Setup where
  engine : IptablesEngine
  untracked : engine.conntrack = []
  bounded : engine.Bounded

/-- The engine, and the packets that it has processed with their verdicts. -/
structure System where
  engine : IptablesEngine
  log : List (Packet × Target)

/-- Process a packet. -/
def step (forwarding : Bool) (s : System) (p : Packet) : Exec System := do
  let (target, engine) ← s.engine.processPacket forwarding p
  return { engine, log := s.log ++ [(p, target)] }

/-- The system before the first packet. -/
def Setup.start (setup : Setup) : System := ⟨setup.engine, []⟩

/-- A verdict that `process_packet` counts as accepted. -/
def Target.accepts : Target → Bool
  | .drop | .reject | .log => false
  | .accept | .snat | .dnat | .masquerade | .redirect => true

/-- The two packets belong to one connection, in the same or in opposite directions. -/
def SameConnection (q p : Packet) : Prop :=
  q.proto = p.proto ∧
    (q.srcIp = p.srcIp ∧ q.srcPort = p.srcPort ∧ q.dstIp = p.dstIp ∧ q.dstPort = p.dstPort ∨
      q.srcIp = p.dstIp ∧ q.srcPort = p.dstPort ∧ q.dstIp = p.srcIp ∧ q.dstPort = p.srcPort)

/-- The chain for the packet's direction drops or rejects it, or it would be forwarded while
forwarding is off. -/
def Denied (forwarding : Bool) (e : IptablesEngine) (p : Packet) : Prop :=
  e.verdict forwarding p = .drop ∨ e.verdict forwarding p = .reject

/-- No packet of the connection has been accepted. -/
def NoneAccepted (log : List (Packet × Target)) (p : Packet) : Prop :=
  ∀ q ∈ log, q.2.accepts = true → ¬ SameConnection q.1 p

/-- Every packet that the rules deny has got their verdict, unless a packet of its connection had
been accepted before it. -/
def NeverLetsThrough (forwarding : Bool) (setup : Setup) (s : System) : Prop :=
  ∀ earlier p target later, s.log = earlier ++ (p, target) :: later →
    Denied forwarding setup.engine p → NoneAccepted earlier p →
    target = setup.engine.verdict forwarding p

/-- The counters have room for the packet; and if the rules deny it and no packet of its connection
has been accepted, its connection is not tracked. -/
def Careful (forwarding : Bool) (setup : Setup) (s : System) (p : Packet) : Prop :=
  s.engine.total.HasRoom p ∧
    (Denied forwarding setup.engine p → NoneAccepted s.log p →
      ∀ entry ∈ s.engine.conntrack, ¬ entry.Matches p)

/-! ### One packet -/

/-- What holds along a run of careful packets. -/
structure Sound (forwarding : Bool) (setup : Setup) (s : System) : Prop where
  bounded : s.engine.Bounded
  rules : IptablesEngine.SameRules setup.engine s.engine
  safe : NeverLetsThrough forwarding setup s

/-- The last packet of a log stands behind all the others. -/
theorem concat_eq_append_cons {α : Type} {log earlier later : List α} {x y : α}
    (h : log ++ [x] = earlier ++ y :: later) :
    earlier = log ∧ y = x ∨ ∃ later', log = earlier ++ y :: later' := by
  rcases List.eq_nil_or_concat later with rfl | ⟨later', z, rfl⟩
  · obtain ⟨rfl, hx⟩ := List.append_inj' h rfl
    exact .inl ⟨rfl, (List.singleton_inj.mp hx).symm⟩
  · rw [List.concat_eq_append, ← List.cons_append, ← List.append_assoc] at h
    obtain ⟨rfl, -⟩ := List.append_inj' h rfl
    exact .inr ⟨later', rfl⟩

section Packet

variable {forwarding : Bool} {setup : Setup} {s : System} {p : Packet}

theorem Sound.step (hs : Sound forwarding setup s) (hp : Careful forwarding setup s p) :
    Returns (step forwarding s p) (Sound forwarding setup) := by
  obtain ⟨⟨target, engine⟩, hprocess, -, huntracked, hbounded, hsame⟩ :=
    IptablesEngine.processPacket_returns hs.bounded hp.1 forwarding
  dsimp only at huntracked hbounded hsame
  rw [Iptables.step, hprocess, ok_bind]
  refine .ok ⟨hbounded, fun f q => (hsame f q).trans (hs.rules f q), ?_⟩
  intro earlier q verdict later hlog hdenied hnone
  rcases concat_eq_append_cons hlog with ⟨rfl, heq⟩ | ⟨later', hold⟩
  · cases heq
    rw [huntracked (hp.2 hdenied hnone), hs.rules]
  · exact hs.safe earlier q verdict later' hold hdenied hnone

theorem not_neverLetsThrough_of_not_careful (hs : Sound forwarding setup s)
    (hp : ¬ Careful forwarding setup s p) {s' : System} (hstep : step forwarding s p = .ok s') :
    ¬ NeverLetsThrough forwarding setup s' := by
  obtain ⟨⟨target, engine⟩, hprocess, heq⟩ := bind_eq_ok_iff.mp hstep
  cases heq
  have hroom := IptablesEngine.hasRoom_of_processPacket hprocess
  obtain ⟨htracked, -⟩ :=
    (IptablesEngine.processPacket_returns hs.bounded hroom forwarding).elim hprocess
  dsimp only at htracked
  -- the counters have room, so a denied packet has met its connection in the table
  simp only [Careful, hroom, true_and] at hp
  push Not at hp
  obtain ⟨hdenied, hnone, hentry⟩ := hp
  intro hsafe
  have hverdict := hsafe s.log p target [] rfl hdenied hnone
  rw [htracked hentry] at hverdict
  rcases hdenied with hdenied | hdenied <;> rw [hdenied] at hverdict <;> cases hverdict

end Packet

/-! ### Runs -/

theorem sound_start (forwarding : Bool) (setup : Setup) :
    Sound forwarding setup setup.start where
  bounded := setup.bounded
  rules := fun _ _ => rfl
  safe := by
    intro earlier p target later hlog
    simp [Setup.start] at hlog

/-- The runs in which every packet gets a verdict and no denied flow is let through are exactly
those in which the counters have room and no denied packet finds its connection tracked. -/
theorem neverLetsThrough_iff (forwarding : Bool) (setup : Setup) (packets : List Packet) :
    (∃ s, run (step forwarding) setup.start packets = .ok s) ∧
        Always (step forwarding) (NeverLetsThrough forwarding setup) setup.start packets ↔
      Guarded (step forwarding) (Careful forwarding setup) setup.start packets :=
  returns_and_always_iff_guarded (Sound forwarding setup) (fun _ hs => hs.safe)
    (fun _ _ hs hp => hs.step hp)
    (fun _ _ _ hs hp hstep => not_neverLetsThrough_of_not_careful hs hp hstep)
    (sound_start forwarding setup) packets

theorem bounded_new : IptablesEngine.new.Bounded := by
  have hchain (policy : Target) : (RuleChain.new policy).Within .zero :=
    ⟨⟨le_rfl, le_rfl⟩, by simp [RuleChain.new]⟩
  exact ⟨⟨hchain _, hchain _, hchain _, hchain _, hchain _, by simp [IptablesEngine.new],
    by simp [IptablesEngine.new]⟩, ⟨le_rfl, le_rfl, le_rfl, le_rfl⟩⟩

/-- The engine as it is initialised. -/
def Setup.initial : Setup := ⟨.new, rfl, bounded_new⟩

/-- A TCP packet from another network to a host behind this one. -/
def passingPacket : Packet :=
  ⟨.tcp, ⟨203, 0, 113, 9⟩, 4000, ⟨10, 0, 2, 20⟩, 22, .forwarded, "eth0", 60⟩

/-- Forwarding is off. The first packet of a flow is dropped, the second one is accepted. -/
theorem second_packet_let_through :
    (run (step false) Setup.initial.start [passingPacket, passingPacket]).map
        (·.log.map Prod.snd) = .ok [.drop, .accept] ∧
      IptablesEngine.new.verdict false passingPacket = .drop := by
  decide +kernel

end MerlionKernel.Iptables
