import MerlionKernel.Net.Address
import MerlionKernel.Rust.Find

/-!
# Rules and chains

The rules of `iptables.rs`. A chain is a list of rules with a policy: the first rule that matches a
packet decides about it, and the policy does when none matches. Evaluating a chain also counts the
packet, in the chain and in the rule that matched.

`RuleChain.decision` says what a chain decides about a packet, without the counters; it is what
`RuleChain.evaluate` returns, and counting does not change it.
-/

namespace MerlionKernel.Iptables

open Rust Net

/-! ### Packets -/

/-- Network protocol selector. -/
inductive Protocol
  | tcp
  | udp
  | icmp
  | any
  deriving DecidableEq

/-- Target action of a rule. -/
inductive Target
  | accept
  | drop
  | reject
  | log
  | snat
  | dnat
  | masquerade
  | redirect
  deriving DecidableEq

/-- Packet direction. -/
inductive Direction
  | inbound
  | outbound
  | forwarded
  deriving DecidableEq

/-- The arguments of `process_packet`. -/
structure Packet where
  proto : Protocol
  srcIp : Ipv4Addr
  srcPort : UInt16
  dstIp : Ipv4Addr
  dstPort : UInt16
  direction : Direction
  iface : String
  pktLen : UInt64

/-! ### Counters -/

/-- The `packets` and `bytes` of a rule, a chain, a connection, a port forward or the engine. -/
structure Counters where
  packets : Nat
  bytes : Nat
  deriving DecidableEq

namespace Counters

def zero : Counters := ⟨0, 0⟩

/-- Count a packet. -/
def count (c : Counters) (p : Packet) : Exec Counters := do
  let packets ← u64 (c.packets + 1)
  let bytes ← u64 (c.bytes + p.pktLen.toNat)
  return { packets, bytes }

/-- The counters after a packet. -/
def counted (p : Packet) (c : Counters) : Counters := ⟨c.packets + 1, c.bytes + p.pktLen.toNat⟩

/-- There is room for one more packet. -/
def HasRoom (c : Counters) (p : Packet) : Prop :=
  c.packets + 1 < 2 ^ 64 ∧ c.bytes + p.pktLen.toNat < 2 ^ 64

/-- No counter is ahead of the others. -/
def Within (c total : Counters) : Prop := c.packets ≤ total.packets ∧ c.bytes ≤ total.bytes

theorem count_eq_ok {c : Counters} {p : Packet} (h : c.HasRoom p) :
    c.count p = .ok (c.counted p) := by
  rw [count, u64_eq_ok h.1, ok_bind, u64_eq_ok h.2]
  rfl

theorem hasRoom_of_count {c c' : Counters} {p : Packet} (h : c.count p = .ok c') :
    c.HasRoom p := by
  obtain ⟨n, hpackets, h⟩ := bind_eq_ok_iff.mp h
  obtain ⟨b, hbytes, -⟩ := bind_eq_ok_iff.mp h
  exact ⟨(u64_eq_ok_iff.mp hpackets).1, (u64_eq_ok_iff.mp hbytes).1⟩

theorem Within.hasRoom {c total : Counters} {p : Packet} (h : c.Within total)
    (hroom : total.HasRoom p) : c.HasRoom p := by
  obtain ⟨hpackets, hbytes⟩ := h
  obtain ⟨hroomPackets, hroomBytes⟩ := hroom
  exact ⟨by omega, by omega⟩

theorem Within.counted {c total : Counters} (h : c.Within total) (p : Packet) :
    (c.counted p).Within (total.counted p) :=
  ⟨Nat.add_le_add_right h.1 1, Nat.add_le_add_right h.2 _⟩

theorem Within.later {c total : Counters} (h : c.Within total) (p : Packet) :
    c.Within (total.counted p) :=
  ⟨Nat.le_add_right_of_le h.1, Nat.le_add_right_of_le h.2⟩

end Counters

/-! ### Rules -/

/-- A rule with its match criteria and its target action. -/
structure Rule where
  target : Target
  protocol : Option Protocol
  srcIp : Option Ipv4Addr
  srcMask : UInt8
  dstIp : Option Ipv4Addr
  dstMask : UInt8
  srcPort : Option UInt16
  dstPort : Option UInt16
  interface : Option String
  counters : Counters

namespace Rule

/-- An address as a number. -/
def addressValue (ip : Ipv4Addr) : UInt32 := UInt32.ofNat (fromBe ip.octets)

/-- Whether an address matches a filter of the given prefix length. -/
def ipMatches (ip filter : Ipv4Addr) (prefixLen : UInt8) : Bool :=
  if prefixLen = 0 then true
  else if prefixLen ≥ 32 then ip = filter
  else
    let mask : UInt32 := ~~~((1 <<< UInt32.ofNat (32 - prefixLen.toNat)) - 1)
    addressValue ip &&& mask = addressValue filter &&& mask

/-- An absent criterion matches everything. -/
def criterion {α : Type} (test : α → Bool) : Option α → Bool
  | none => true
  | some a => test a

/-- Whether a packet matches the rule. -/
def «matches» (r : Rule) (p : Packet) : Bool :=
  criterion (fun proto => proto = .any ∨ proto = p.proto) r.protocol &&
    criterion (fun ip => ipMatches p.srcIp ip r.srcMask) r.srcIp &&
    criterion (fun ip => ipMatches p.dstIp ip r.dstMask) r.dstIp &&
    criterion (fun port => port = p.srcPort) r.srcPort &&
    criterion (fun port => port = p.dstPort) r.dstPort &&
    criterion (fun name => name = p.iface) r.interface

/-- Count a packet in the rule. -/
def count (r : Rule) (p : Packet) : Exec Rule := do
  return { r with counters := ← r.counters.count p }

/-- The rule after a packet that it matched. -/
def counted (p : Packet) (r : Rule) : Rule := { r with counters := r.counters.counted p }

end Rule

/-! ### Chains -/

/-- A chain of rules with a default policy. -/
structure RuleChain where
  rules : List Rule
  policy : Target
  nextNum : Nat
  total : Counters

namespace RuleChain

def new (policy : Target) : RuleChain where
  rules := []
  policy := policy
  nextNum := 1
  total := .zero

/-- The matching target or the policy. -/
def evaluate (c : RuleChain) (p : Packet) : Exec (Target × RuleChain) := do
  let total ← c.total.count p
  match ← changeFirst (·.matches p) (·.count p) c.rules with
  | (some rule, rules) => return (rule.target, { c with total, rules })
  | (none, _) => return (c.policy, { c with total })

/-- What the chain decides about a packet: the target of the first rule that matches, or the
policy. -/
def decision (c : RuleChain) (p : Packet) : Target :=
  match c.rules.find? (·.matches p) with
  | some rule => rule.target
  | none => c.policy

/-- The chain after a packet. -/
def counted (p : Packet) (c : RuleChain) : RuleChain :=
  { c with
    total := c.total.counted p
    rules := modifyFirst (·.matches p) (·.counted p) c.rules }

/-- No counter of the chain is ahead of `total`. -/
def Within (c : RuleChain) (total : Counters) : Prop :=
  c.total.Within total ∧ ∀ r ∈ c.rules, r.counters.Within total

/-- A chain with room in its counters returns its decision and counts the packet. -/
theorem evaluate_eq_ok {c : RuleChain} {p : Packet} {total : Counters} (h : c.Within total)
    (hroom : total.HasRoom p) : c.evaluate p = .ok (c.decision p, c.counted p) := by
  have hrules : ∀ r ∈ c.rules, r.count p = .ok (r.counted p) := by
    intro r hr
    rw [Rule.count, Counters.count_eq_ok ((h.2 r hr).hasRoom hroom)]
    rfl
  rw [evaluate, Counters.count_eq_ok (h.1.hasRoom hroom), ok_bind, changeFirst_eq_ok hrules,
    ok_bind, decision, counted]
  cases hfind : c.rules.find? (·.matches p) with
  | some rule => rfl
  | none =>
    rw [modifyFirst_of_find?_eq_none hfind]
    rfl

/-- Counting a packet changes no decision. -/
theorem decision_counted (c : RuleChain) (p q : Packet) :
    (c.counted p).decision q = c.decision q := by
  -- the rules before and after agree in all but their counters
  have hfind (rules : List Rule) :
      ((modifyFirst (·.matches p) (·.counted p) rules).find? (·.matches q)).map (·.target) =
        (rules.find? (·.matches q)).map (·.target) := by
    induction rules with
    | nil => rfl
    | cons r rules ih =>
      unfold modifyFirst
      split
      · have hsame : (r.counted p).matches q = r.matches q := rfl
        rw [List.find?_cons, List.find?_cons, hsame]
        cases r.matches q <;> rfl
      · rw [List.find?_cons, List.find?_cons]
        cases r.matches q with
        | true => rfl
        | false => exact ih
  have hrules := hfind c.rules
  unfold decision counted
  dsimp only
  cases h : c.rules.find? (·.matches q) <;>
    cases h' : (modifyFirst (·.matches p) (·.counted p) c.rules).find? (·.matches q) <;>
    simp_all

theorem Within.counted {c : RuleChain} {total : Counters} (h : c.Within total) (p : Packet) :
    (c.counted p).Within (total.counted p) := by
  refine ⟨h.1.counted p, ?_⟩
  exact forall_mem_modifyFirst (fun r hr => (h.2 r hr).later p) fun r hr => (h.2 r hr).counted p

theorem Within.later {c : RuleChain} {total : Counters} (h : c.Within total) (p : Packet) :
    c.Within (total.counted p) :=
  ⟨h.1.later p, fun r hr => (h.2 r hr).later p⟩

end RuleChain

end MerlionKernel.Iptables
