import Mathlib.Data.Prod.Lex
import Mathlib.Order.RelClasses
import Mathlib.Order.WithBot
import MerlionKernel.Net.Address

/-!
# Best path selection

The decision process of `bgp.rs`. Two routes are compared by six attributes, each of which decides
where those before it tie. For every prefix the routes are scanned once from left to right, and
the best of the valid ones is marked.

A route has a rank in a lexicographic order, so being preferred is a strict weak order. The scan
finds the route with the lowest rank and, among those, the first one.
-/

namespace MerlionKernel.Bgp

open Rust Net

/-- The ORIGIN attribute. -/
inductive Origin
  | igp
  | egp
  | incomplete
  deriving DecidableEq

/-- `origin as u8`. -/
def Origin.toNat : Origin → Nat
  | .igp => 0
  | .egp => 1
  | .incomplete => 2

theorem Origin.toNat_inj {a b : Origin} : a.toNat = b.toNat ↔ a = b := by
  cases a <;> cases b <;> decide

/-- A peer, with what the comparison of routes reads of it. -/
structure BgpPeer where
  ip : Ipv4Addr
  isEbgp : Bool

/-- A prefix and its length. -/
structure Nlri where
  pfx : Ipv4Addr
  length : UInt8
  deriving DecidableEq

/-- The attributes of a path that routes are compared by. -/
structure PathAttributes where
  origin : Origin
  asPath : List Nat
  localPref : Nat
  med : Nat

def PathAttributes.asPathLength (a : PathAttributes) : Nat := a.asPath.length

/-- A route. -/
structure BgpRoute where
  nlri : Nlri
  attrs : PathAttributes
  peerIp : Ipv4Addr
  best : Bool
  valid : Bool

/-- The route comes from an external peer. -/
def isEbgp (peers : List BgpPeer) (r : BgpRoute) : Bool :=
  match peers.find? (·.ip = r.peerIp) with
  | some p => p.isEbgp
  | none => false

/-- The address of the peer as a number. -/
def routerId (r : BgpRoute) : Nat := fromBe r.peerIp.octets

namespace BgpRib

end BgpRib

/-! ### The order of routes -/

/-- What routes are compared by, most important first. -/
abbrev Rank := ℕᵒᵈ ×ₗ ℕ ×ₗ ℕ ×ₗ ℕ ×ₗ Bool ×ₗ ℕ

def rank (peers : List BgpPeer) (r : BgpRoute) : Rank :=
  toLex (.toDual r.attrs.localPref, toLex (r.attrs.asPathLength, toLex (r.attrs.origin.toNat,
    toLex (r.attrs.med, toLex (!isEbgp peers r, routerId r)))))

section Choice

variable (peers : List BgpPeer)

/-- There is a valid route for the prefix at this index. -/
def Candidate (routes : List BgpRoute) (nlri : Nlri) (k : Nat) : Prop :=
  ∃ r, routes[k]? = some r ∧ r.valid = true ∧ r.nlri = nlri

/-- The rank of the route at an index, and the index to decide between equal ranks. -/
def place (routes : List BgpRoute) (k : Nat) : WithTop Rank ×ₗ ℕ :=
  toLex ((routes[k]?).map (rank peers), k)

/-- Among the first `limit` routes this is the first one of the lowest rank for the prefix. -/
structure Chosen (routes : List BgpRoute) (nlri : Nlri) (limit k : Nat) : Prop where
  lt : k < limit
  candidate : Candidate routes nlri k
  least : ∀ j < limit, Candidate routes nlri j → place peers routes k ≤ place peers routes j

variable {routes : List BgpRoute} {nlri : Nlri}

theorem Candidate.lt {k : Nat} (h : Candidate routes nlri k) : k < routes.length := by
  obtain ⟨r, hr, -⟩ := h
  exact (List.getElem?_eq_some_iff.mp hr).1

variable {peers} in
theorem Chosen.unique {limit k k' : Nat} (h : Chosen peers routes nlri limit k)
    (h' : Chosen peers routes nlri limit k') : k = k' := by
  have hplace := le_antisymm (h.least k' h'.lt h'.candidate) (h'.least k h.lt h.candidate)
  exact congrArg (fun p => (ofLex p).2) hplace

end Choice

/-! ### Marked routes -/

open Classical in
/-- The routes with those at the indices of `p` marked as best. -/
noncomputable def mark (routes : List BgpRoute) (p : Nat → Prop) : List BgpRoute :=
  routes.mapIdx fun k r => { r with best := decide (p k) }

section Mark

variable {peers : List BgpPeer} {routes : List BgpRoute} {p : Nat → Prop}

open Classical in
theorem getElem?_mark (k : Nat) :
    (mark routes p)[k]? = (routes[k]?).map fun r => { r with best := decide (p k) } := by
  rw [mark, List.getElem?_mapIdx]

@[simp] theorem candidate_mark {nlri : Nlri} {k : Nat} :
    Candidate (mark routes p) nlri k ↔ Candidate routes nlri k := by
  simp only [Candidate, getElem?_mark, Option.map_eq_some_iff]
  constructor
  · rintro ⟨_, ⟨r, hr, rfl⟩, h⟩
    exact ⟨r, hr, h⟩
  · rintro ⟨r, hr, h⟩
    exact ⟨_, ⟨r, hr, rfl⟩, h⟩

end Mark

/-! ### The selection -/

/-- The route is the best one for some prefix. -/
def IsBest (peers : List BgpPeer) (routes : List BgpRoute) (k : Nat) : Prop :=
  ∃ x, Chosen peers routes x routes.length k

/-- A marked route is valid and the best one for its own prefix. -/
theorem IsBest.spec {peers : List BgpPeer} {routes : List BgpRoute} {k : Nat} {b : BgpRoute}
    (h : IsBest peers routes k) (hb : (mark routes (IsBest peers routes))[k]? = some b) :
    b.valid = true ∧ Chosen peers routes b.nlri routes.length k := by
  obtain ⟨x, hx⟩ := h
  obtain ⟨r, hr, hvalid, rfl⟩ := candidate_mark.mpr hx.candidate
  obtain rfl : b = r := Option.some.inj (hb.symm.trans hr)
  exact ⟨hvalid, hx⟩

end MerlionKernel.Bgp
