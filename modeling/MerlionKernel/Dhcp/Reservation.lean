import MerlionKernel.Net.Address
import MerlionKernel.Rust.Find
import MerlionKernel.Theory.Run

/-!
# DHCP reservations

The lease table and the reservations of `dhcpd.rs` with the handlers of DISCOVER, REQUEST, RELEASE,
DECLINE and INFORM, from the point where a packet has been taken apart into its type, the client
and the requested address. The table is the list of the first `lease_count` entries of the array.

Reservations are looked at for the client that asks, and only there. The address that is reserved
for one client is offered to another when its turn in the pool comes, and acknowledged to any client
that asks for it, or says that it has it; and a reserved address that lies outside the pool is
offered, but then denied.
-/

namespace MerlionKernel.Dhcp

open Rust Net Theory

/-! ### The server -/

/-- A MAC address, by which a client is identified. -/
structure MacAddr where
  a : UInt8
  b : UInt8
  c : UInt8
  d : UInt8
  e : UInt8
  f : UInt8
  deriving DecidableEq

/-- `MAX_LEASES`. -/
def maxLeases : Nat := 256

/-- `MAX_RESERVATIONS`. -/
def maxReservations : Nat := 64

/-- A lease binding a MAC address to an IP address. -/
structure Lease where
  mac : MacAddr
  ip : Ipv4Addr
  duration : Nat
  grantedTick : Nat
  active : Bool
  deriving DecidableEq

/-- `Lease::is_expired`; the duration is in seconds of 100 ticks. -/
def Lease.isExpired (self : Lease) (nowTicks : Nat) : Exec Bool :=
  if !self.active then return true
  else do
    let ticks ← u64 (self.duration * 100)
    let expiryTicks ← u64 (self.grantedTick + ticks)
    return decide (nowTicks ≥ expiryTicks)

/-- A static reservation. -/
structure Reservation where
  mac : MacAddr
  ip : Ipv4Addr
  deriving DecidableEq

/-- The fields of `PoolConfig` that leases depend on. -/
structure PoolConfig where
  start : Ipv4Addr
  «end» : Ipv4Addr
  leaseDuration : Nat
  deriving DecidableEq

/-- `DhcpdState`. -/
structure DhcpdState where
  config : PoolConfig
  leases : List Lease
  reservations : List Reservation
  deriving DecidableEq

/-- The first entry that is not active or over. -/
def firstFree (now : Nat) : List Lease → Exec (Option Nat)
  | [] => return none
  | l :: ls =>
    if !l.active then return some 0
    else do
      if ← l.isExpired now then return some 0
      else return (← firstFree now ls).map (· + 1)

/-- Whether some entry holds an address. -/
def inUse (now : Nat) (candidate : Ipv4Addr) : List Lease → Exec Bool
  | [] => return false
  | l :: ls =>
    if l.ip = candidate ∧ l.active then do
      if !(← l.isExpired now) then return true
      else inUse now candidate ls
    else inUse now candidate ls

/-- The first of some addresses that no entry holds. -/
def firstUnused (now : Nat) (leases : List Lease) : List Ipv4Addr → Exec (Option Ipv4Addr)
  | [] => return none
  | candidate :: rest => do
    if !(← inUse now candidate leases) then return some candidate
    else firstUnused now leases rest

namespace DhcpdState

/-- `find_lease_by_mac`. -/
def findLeaseByMac (self : DhcpdState) (mac : MacAddr) : Option Nat :=
  self.leases.findIdx? fun l => l.mac = mac ∧ l.active

/-- `find_lease_by_ip`. -/
def findLeaseByIp (self : DhcpdState) (ip : Ipv4Addr) : Option Nat :=
  self.leases.findIdx? fun l => l.ip = ip ∧ l.active

/-- `ip_in_pool`: three octets of the start, and the last in range. -/
def ipInPool (self : DhcpdState) (ip : Ipv4Addr) : Bool :=
  ip.a = self.config.start.a ∧ ip.b = self.config.start.b ∧ ip.c = self.config.start.c ∧
    ip.d ≥ self.config.start.d ∧ ip.d ≤ self.config.end.d

/-- `find_reservation`. -/
def findReservation (self : DhcpdState) (mac : MacAddr) : Option Ipv4Addr :=
  (self.reservations.find? fun r => r.mac = mac).map Reservation.ip

/-- The addresses of the pool in order. -/
def candidates (self : DhcpdState) : List Ipv4Addr :=
  let lo := self.config.start.d.toNat
  (List.range' lo (self.config.end.d.toNat + 1 - lo)).map fun last =>
    ⟨self.config.start.a, self.config.start.b, self.config.start.c, UInt8.ofNat last⟩

/-- The address of the client's lease, if it is not over. -/
def currentIp (self : DhcpdState) (now : Nat) (mac : MacAddr) : Exec (Option Ipv4Addr) :=
  match self.findLeaseByMac mac with
  | none => return none
  | some idx => do
    let lease ← index self.leases idx
    if !(← lease.isExpired now) then return some lease.ip else return none

/-- `allocate_ip`. -/
def allocateIp (self : DhcpdState) (now : Nat) (mac : MacAddr) : Exec (Option Ipv4Addr) :=
  match self.findReservation mac with
  | some ip => return some ip
  | none => do
    match ← self.currentIp now mac with
    | some ip => return some ip
    | none => firstUnused now self.leases self.candidates

/-- `grant_lease`: in the client's active entry, else in an entry that is free, else in a new one,
if there is room. -/
def grantLease (self : DhcpdState) (now : Nat) (mac : MacAddr) (ip : Ipv4Addr) :
    Exec DhcpdState :=
  let duration := self.config.leaseDuration
  let lease : Lease := { mac, ip, duration, grantedTick := now, active := true }
  match self.findLeaseByMac mac with
  | some idx => do
    let old ← index self.leases idx
    let renewed := { old with ip, duration, grantedTick := now, active := true }
    return { self with leases := self.leases.set idx renewed }
  | none => do
    match ← firstFree now self.leases with
    | some i => return { self with leases := self.leases.set i lease }
    | none =>
      if self.leases.length < maxLeases then
        return { self with leases := self.leases ++ [lease] }
      else return self

/-- `release_lease`. -/
def releaseLease (self : DhcpdState) (mac : MacAddr) : DhcpdState :=
  match self.findLeaseByMac mac with
  | some idx =>
    { self with leases := self.leases.modify idx fun l => { l with active := false } }
  | none => self

/-- `add_reservation`. -/
def addReservation (self : DhcpdState) (r : Reservation) : DhcpdState :=
  if self.reservations.length < maxReservations then
    { self with reservations := self.reservations ++ [r] }
  else self

/-- Whether the first active lease on an address is another client's and not over. -/
def heldByOther (self : DhcpdState) (now : Nat) (mac : MacAddr) (ip : Ipv4Addr) : Exec Bool :=
  match self.findLeaseByIp ip with
  | none => return false
  | some idx => do
    let lease ← index self.leases idx
    if lease.mac ≠ mac then return !(← lease.isExpired now) else return false

end DhcpdState

/-! ### Messages -/

/-- What a packet about leases asks for; the address of a REQUEST is the option, or `ciaddr`. -/
inductive Message
  | discover (mac : MacAddr)
  | request (mac : MacAddr) (requested : Option Ipv4Addr)
  | release (mac : MacAddr)
  | decline (mac : MacAddr)

/-- What the server answers. -/
inductive Reply
  | offer (ip : Ipv4Addr)
  | ack (ip : Ipv4Addr)
  | nak

namespace DhcpdState

/-- `handle_request`. -/
def handleRequest (self : DhcpdState) (now : Nat) (mac : MacAddr) (requested : Option Ipv4Addr) :
    Exec (Option Reply × DhcpdState) :=
  match requested with
  | none => return (none, self)
  | some ip =>
    if !self.ipInPool ip then return (some .nak, self)
    else do
      if ← self.heldByOther now mac ip then return (some .nak, self)
      else return (some (.ack ip), ← self.grantLease now mac ip)

/-- The handler for a message. -/
def handle (self : DhcpdState) (now : Nat) : Message → Exec (Option Reply × DhcpdState)
  | .discover mac => do return ((← self.allocateIp now mac).map .offer, self)
  | .request mac requested => self.handleRequest now mac requested
  | .release mac => return (none, self.releaseLease mac)
  | .decline mac => return (none, self.releaseLease mac)

end DhcpdState

/-! ### Leases -/

/-- The lease is active and not over. -/
def Lease.UnexpiredAt (l : Lease) (now : Nat) : Prop :=
  l.active ∧ now < l.grantedTick + l.duration * 100

/-- What `isExpired` answers, if it does. -/
theorem Lease.isExpired_eq_iff {l : Lease} {now : Nat} {b : Bool} (h : l.isExpired now = .ok b) :
    b = false ↔ l.UnexpiredAt now := by
  unfold isExpired at h
  by_cases hactive : l.active
  · rw [hactive] at h
    obtain ⟨ticks, hticks, h⟩ := bind_eq_ok_iff.mp h
    obtain ⟨expiry, hexpiry, h⟩ := bind_eq_ok_iff.mp h
    obtain ⟨-, rfl⟩ := u64_eq_ok_iff.mp hticks
    obtain ⟨-, rfl⟩ := u64_eq_ok_iff.mp hexpiry
    cases h
    simp [UnexpiredAt, hactive]
  · simp only [hactive, Bool.not_false, if_true, pure_eq_ok, Except.ok.injEq] at h
    simp [UnexpiredAt, hactive, ← h]

/-- Some lease on the address is not over. -/
def Held (leases : List Lease) (now : Nat) (ip : Ipv4Addr) : Prop :=
  ∃ l ∈ leases, l.ip = ip ∧ l.UnexpiredAt now

theorem of_inUse {now : Nat} {ip : Ipv4Addr} {leases : List Lease} {b : Bool}
    (h : inUse now ip leases = .ok b) : b = true ↔ Held leases now ip := by
  induction leases with
  | nil =>
    cases h
    simp [Held]
  | cons l ls ih =>
    rw [inUse] at h
    rw [Held, List.exists_mem_cons_iff]
    by_cases hl : l.ip = ip ∧ l.active
    · rw [if_pos hl] at h
      obtain ⟨expired, hexpired, h⟩ := bind_eq_ok_iff.mp h
      have hspec := Lease.isExpired_eq_iff hexpired
      cases expired with
      | false =>
        cases h
        exact iff_of_true rfl (.inl ⟨hl.1, hspec.mp rfl⟩)
      | true =>
        rw [or_iff_right fun hun => Bool.noConfusion (hspec.mpr hun.2)]
        exact ih h
    · rw [if_neg hl] at h
      rw [or_iff_right fun hun => hl ⟨hun.1, hun.2.1⟩]
      exact ih h

/-- The address is the first of the candidates that is not held. -/
def FirstUnheld (leases : List Lease) (now : Nat) (addresses : List Ipv4Addr) (ip : Ipv4Addr) :
    Prop :=
  ∃ before after, addresses = before ++ ip :: after ∧ (∀ a ∈ before, Held leases now a) ∧
    ¬ Held leases now ip

theorem firstUnheld_cons {leases : List Lease} {now : Nat} {a ip : Ipv4Addr}
    {rest : List Ipv4Addr} :
    FirstUnheld leases now (a :: rest) ip ↔
      ¬ Held leases now a ∧ a = ip ∨ Held leases now a ∧ FirstUnheld leases now rest ip := by
  constructor
  · rintro ⟨before, after, heq, hbefore, hfree⟩
    cases before with
    | nil =>
      cases heq
      exact .inl ⟨hfree, rfl⟩
    | cons b before =>
      cases heq
      obtain ⟨hheld, hbefore⟩ := List.forall_mem_cons.mp hbefore
      exact .inr ⟨hheld, before, after, rfl, hbefore, hfree⟩
  · rintro (⟨hfree, rfl⟩ | ⟨hheld, before, after, rfl, hbefore, hfree⟩)
    · exact ⟨[], rest, rfl, List.forall_mem_nil _, hfree⟩
    · exact ⟨a :: before, after, rfl, List.forall_mem_cons.mpr ⟨hheld, hbefore⟩, hfree⟩

theorem of_firstUnused {now : Nat} {leases : List Lease} {addresses : List Ipv4Addr}
    {result : Option Ipv4Addr} (h : firstUnused now leases addresses = .ok result)
    (ip : Ipv4Addr) : result = some ip ↔ FirstUnheld leases now addresses ip := by
  induction addresses with
  | nil =>
    cases h
    exact iff_of_false (Option.some_ne_none _).symm fun ⟨_, _, heq, _⟩ => by simp at heq
  | cons a rest ih =>
    obtain ⟨used, hused, h⟩ := bind_eq_ok_iff.mp h
    have hspec := of_inUse hused
    rw [firstUnheld_cons]
    cases used with
    | true =>
      rw [ih h]
      simp [hspec.mp rfl]
    | false =>
      cases h
      have hfree : ¬ Held leases now a := fun hheld => Bool.noConfusion (hspec.mpr hheld)
      simp [hfree]

namespace DhcpdState

variable {s s' : DhcpdState} {now : Nat} {mac : MacAddr} {ip : Ipv4Addr}

/-- The first active lease of the client. -/
def leaseOf (s : DhcpdState) (mac : MacAddr) : Option Lease :=
  s.leases.find? fun l => l.mac = mac ∧ l.active

/-- The first active lease on the address. -/
def leaseOn (s : DhcpdState) (ip : Ipv4Addr) : Option Lease :=
  s.leases.find? fun l => l.ip = ip ∧ l.active

/-- The address that a client is to be given: its reservation, the address of its lease, or the
first address of the pool that nobody holds. -/
def Allots (s : DhcpdState) (now : Nat) (mac : MacAddr) (ip : Ipv4Addr) : Prop :=
  s.findReservation mac = some ip ∨
    s.findReservation mac = none ∧
      ((∃ l, s.leaseOf mac = some l ∧ l.UnexpiredAt now ∧ l.ip = ip) ∨
        (∀ l, s.leaseOf mac = some l → ¬ l.UnexpiredAt now) ∧
          FirstUnheld s.leases now s.candidates ip)

/-- The first active lease on the address is another client's and not over. -/
def HeldByOther (s : DhcpdState) (now : Nat) (mac : MacAddr) (ip : Ipv4Addr) : Prop :=
  ∃ l, s.leaseOn ip = some l ∧ l.mac ≠ mac ∧ l.UnexpiredAt now

theorem of_currentIp {result : Option Ipv4Addr} (h : s.currentIp now mac = .ok result) :
    (∀ ip, result = some ip ↔ ∃ l, s.leaseOf mac = some l ∧ l.UnexpiredAt now ∧ l.ip = ip) ∧
      (result = none ↔ ∀ l, s.leaseOf mac = some l → ¬ l.UnexpiredAt now) := by
  unfold currentIp at h
  cases hfind : s.findLeaseByMac mac with
  | none =>
    rw [hfind] at h
    cases h
    have hnone : s.leaseOf mac = none := by
      rw [leaseOf, List.find?_eq_none]
      simpa using List.findIdx?_eq_none_iff.mp hfind
    simp [hnone]
  | some i =>
    obtain ⟨l, hl, hfirst, -⟩ := find?_of_findIdx? hfind
    rw [hfind] at h
    dsimp only at h
    rw [index_eq_ok_iff.mpr hl, ok_bind] at h
    obtain ⟨expired, hexpired, h⟩ := bind_eq_ok_iff.mp h
    have hspec := Lease.isExpired_eq_iff hexpired
    have hof : s.leaseOf mac = some l := hfirst
    cases expired with
    | false =>
      cases h
      simp [hof, hspec.mp rfl]
    | true =>
      cases h
      have hover : ¬ l.UnexpiredAt now := fun hun => Bool.noConfusion (hspec.mpr hun)
      simp [hof, hover]

theorem of_allocateIp {result : Option Ipv4Addr} (h : s.allocateIp now mac = .ok result)
    (ip : Ipv4Addr) : result = some ip ↔ s.Allots now mac ip := by
  unfold allocateIp at h
  cases hreserved : s.findReservation mac with
  | some reserved =>
    rw [hreserved] at h
    cases h
    simp [Allots, hreserved]
  | none =>
    rw [hreserved] at h
    obtain ⟨current, hcurrent, h⟩ := bind_eq_ok_iff.mp h
    obtain ⟨hsome, hnone⟩ := of_currentIp hcurrent
    simp only [Allots, hreserved, ← hsome, ← hnone]
    cases current with
    | some own =>
      cases h
      simp
    | none => simpa using of_firstUnused h ip

theorem of_heldByOther {b : Bool} (h : s.heldByOther now mac ip = .ok b) :
    b = true ↔ s.HeldByOther now mac ip := by
  unfold heldByOther at h
  cases hfind : s.findLeaseByIp ip with
  | none =>
    rw [hfind] at h
    cases h
    have hnone : s.leaseOn ip = none := by
      rw [leaseOn, List.find?_eq_none]
      simpa using List.findIdx?_eq_none_iff.mp hfind
    simp [HeldByOther, hnone]
  | some i =>
    obtain ⟨l, hl, hfirst, -⟩ := find?_of_findIdx? hfind
    have hon : s.leaseOn ip = some l := hfirst
    rw [hfind] at h
    dsimp only at h
    rw [index_eq_ok_iff.mpr hl, ok_bind] at h
    by_cases hmac : l.mac ≠ mac
    · rw [if_pos hmac] at h
      obtain ⟨expired, hexpired, h⟩ := bind_eq_ok_iff.mp h
      have hspec := Lease.isExpired_eq_iff hexpired
      cases h
      simp [HeldByOther, hon, hmac, ← hspec]
    · rw [if_neg hmac] at h
      cases h
      simp [HeldByOther, hon, hmac]

theorem handleRequest_ne_offer {reply : Option Reply} {requested : Option Ipv4Addr}
    (h : s.handleRequest now mac requested = .ok (reply, s')) (ip : Ipv4Addr) :
    reply ≠ some (.offer ip) := by
  unfold handleRequest at h
  split at h
  · cases h
    nofun
  · split at h
    · cases h
      nofun
    · obtain ⟨held, -, h⟩ := bind_eq_ok_iff.mp h
      split at h
      · cases h
        nofun
      · obtain ⟨state, -, h⟩ := bind_eq_ok_iff.mp h
        cases h
        nofun

/-- A REQUEST is acknowledged exactly if the address lies in the pool and no other client holds
it. -/
theorem handleRequest_ack_iff {reply : Option Reply} {requested : Ipv4Addr}
    (h : s.handleRequest now mac (some requested) = .ok (reply, s')) (ip : Ipv4Addr) :
    reply = some (.ack ip) ↔
      requested = ip ∧ s.ipInPool ip = true ∧ ¬ s.HeldByOther now mac ip := by
  unfold handleRequest at h
  dsimp only at h
  cases hpool : s.ipInPool requested with
  | false =>
    rw [hpool] at h
    cases h
    refine iff_of_false (by simp) ?_
    rintro ⟨rfl, hin, -⟩
    simp [hpool] at hin
  | true =>
    rw [hpool] at h
    obtain ⟨held, hheld, h⟩ := bind_eq_ok_iff.mp h
    have hspec := of_heldByOther hheld
    cases held with
    | true =>
      cases h
      refine iff_of_false (by simp) ?_
      rintro ⟨rfl, -, hfree⟩
      exact hfree (hspec.mp rfl)
    | false =>
      obtain ⟨state, -, h⟩ := bind_eq_ok_iff.mp h
      cases h
      have hfree : ¬ s.HeldByOther now mac requested := fun hheld =>
        Bool.noConfusion (hspec.mpr hheld)
      simp only [Option.some.injEq, Reply.ack.injEq]
      constructor
      · rintro rfl
        exact ⟨rfl, hpool, hfree⟩
      · exact And.left

end DhcpdState

/-! ### Runs -/

/-- A packet: a message about leases, or an INFORM of a client with its address. -/
inductive Packet
  | message (m : Message)
  | inform (mac : MacAddr) (ciaddr : Ipv4Addr)

/-- The client that a packet comes from. -/
def Packet.mac : Packet → MacAddr
  | .message (.discover mac) | .message (.request mac _) => mac
  | .message (.release mac) | .message (.decline mac) => mac
  | .inform mac _ => mac

/-- `handle_inform`: an ACK with the address that the client has given, whoever it is. -/
def handleInform (ciaddr : Ipv4Addr) : Option Reply := some (.ack ciaddr)

/-- `process_packet`. -/
def DhcpdState.processPacket (self : DhcpdState) (now : Nat) :
    Packet → Exec (Option Reply × DhcpdState)
  | .message m => self.handle now m
  | .inform _ ciaddr => return (handleInform ciaddr, self)

/-- A packet with the offer that the packet before it led to, and the reply. -/
structure Exchange where
  offered : Option (MacAddr × Ipv4Addr)
  packet : Packet
  reply : Option Reply

/-- The server, the time, the offer that was just made, and the last exchange. -/
structure System where
  server : DhcpdState
  now : Nat
  offered : Option (MacAddr × Ipv4Addr)
  last : Option Exchange

/-- The offer that a reply to a packet makes. -/
def offerOf : Packet → Option Reply → Option (MacAddr × Ipv4Addr)
  | .message (.discover mac), some (.offer ip) => some (mac, ip)
  | _, _ => none

/-- The server processes a packet, some ticks after the one before. -/
def step (s : System) (p : Nat × Packet) : Exec System := do
  let (reply, server) ← s.server.processPacket (s.now + p.1) p.2
  return { server, now := s.now + p.1, offered := offerOf p.2 reply,
           last := some ⟨s.offered, p.2, reply⟩ }

/-- The server after the reservation is added. -/
def System.reserved (server : DhcpdState) (now : Nat) (r : Reservation) : System :=
  { server := server.addReservation r, now, offered := none, last := none }

/-- The reserved address goes to nobody else, and what was just offered is acknowledged. -/
def Exchange.Proper (r : Reservation) (x : Exchange) : Prop :=
  (x.reply = some (.offer r.ip) ∨ x.reply = some (.ack r.ip) → x.packet.mac = r.mac) ∧
    ∀ mac ip, x.packet = .message (.request mac (some ip)) → x.offered = some (mac, ip) →
      x.reply = some (.ack ip)

/-- The last exchange was proper. -/
def Kept (r : Reservation) (s : System) : Prop := ∀ x, s.last = some x → x.Proper r

/-- The address is reserved for the client, or it has an active lease on it. -/
def DhcpdState.Bound (s : DhcpdState) (mac : MacAddr) (ip : Ipv4Addr) : Prop :=
  s.findReservation mac = some ip ∨ ∃ l, s.leaseOf mac = some l ∧ l.ip = ip

/-- Another client is not to be given the reserved address, does not ask for it while it lies in
the pool and nobody holds it, and does not say that it has it; and a client that takes up an offer
of an address it is bound to has that address in the pool, where no other client holds it. An offer
of any other address can be taken up. -/
def Packet.InOrder (r : Reservation) (s : DhcpdState) (offered : Option (MacAddr × Ipv4Addr))
    (now : Nat) : Packet → Prop
  | .message (.discover mac) => s.Allots now mac r.ip → mac = r.mac
  | .message (.request mac requested) =>
    (requested = some r.ip → s.ipInPool r.ip = true → ¬ s.HeldByOther now mac r.ip →
      mac = r.mac) ∧
    ∀ ip, requested = some ip → offered = some (mac, ip) → s.Bound mac ip →
      s.ipInPool ip = true ∧ ¬ s.HeldByOther now mac ip
  | .message (.release _) | .message (.decline _) => True
  | .inform mac ciaddr => ciaddr = r.ip → mac = r.mac

/-- A packet that is processed is in order. -/
def InOrder (r : Reservation) (s : System) (p : Nat × Packet) : Prop :=
  ∀ s', step s p = .ok s' → p.2.InOrder r s.server s.offered (s.now + p.1)

/-! ### Offers -/

/-- The offer that was just made is what the client was to be given then. -/
def OfferMade (server : DhcpdState) (now : Nat) (offered : Option (MacAddr × Ipv4Addr)) : Prop :=
  ∀ mac ip, offered = some (mac, ip) → ∃ then', then' ≤ now ∧ server.Allots then' mac ip

theorem Lease.UnexpiredAt.mono {l : Lease} {now now' : Nat} (h : l.UnexpiredAt now')
    (hle : now ≤ now') : l.UnexpiredAt now :=
  ⟨h.1, hle.trans_lt h.2⟩

theorem DhcpdState.ipInPool_of_mem_candidates {s : DhcpdState} {ip : Ipv4Addr}
    (h : ip ∈ s.candidates) : s.ipInPool ip = true := by
  obtain ⟨last, hlast, rfl⟩ := List.mem_map.mp h
  rw [List.mem_range'_1] at hlast
  have hend := s.config.end.d.toNat_lt
  have hmod : last % 256 = last := Nat.mod_eq_of_lt (by omega)
  simp only [ipInPool, UInt8.le_iff_toNat_le, UInt8.toNat_ofNat', ge_iff_le, true_and,
    decide_eq_true_eq]
  omega

/-- An address of the pool that was offered because nobody held it is acknowledged later. -/
theorem free_of_offer {s : DhcpdState} {now : Nat} {mac : MacAddr} {ip : Ipv4Addr}
    (h : OfferMade s now (some (mac, ip))) (hbound : ¬ s.Bound mac ip) :
    s.ipInPool ip = true ∧ ¬ s.HeldByOther now mac ip := by
  obtain ⟨then', hle, hreserved | ⟨-, ⟨l, hl, -, hip⟩ | ⟨-, before, after, hsplit, -, hfree⟩⟩⟩ :=
    h mac ip rfl
  · exact absurd (.inl hreserved) hbound
  · exact absurd (.inr ⟨l, hl, hip⟩) hbound
  · refine ⟨DhcpdState.ipInPool_of_mem_candidates (hsplit ▸ by simp), ?_⟩
    rintro ⟨l, hl, -, hun⟩
    rw [DhcpdState.leaseOn] at hl
    have hon := List.find?_some hl
    rw [decide_eq_true_eq] at hon
    exact hfree ⟨l, List.mem_of_find?_eq_some hl, hon.1, hun.mono hle⟩

theorem processPacket_proper_iff {r : Reservation} {s s' : DhcpdState} {now : Nat} {p : Packet}
    {offered : Option (MacAddr × Ipv4Addr)} {reply : Option Reply}
    (hoffer : OfferMade s now offered) (h : s.processPacket now p = .ok (reply, s')) :
    Exchange.Proper r ⟨offered, p, reply⟩ ↔ p.InOrder r s offered now := by
  rcases p with (⟨mac⟩ | ⟨mac, - | ip⟩ | ⟨mac⟩ | ⟨mac⟩) | ⟨mac, ciaddr⟩
  · obtain ⟨result, hresult, h⟩ := bind_eq_ok_iff.mp h
    cases h
    have hspec := DhcpdState.of_allocateIp hresult r.ip
    simp only [Exchange.Proper, Packet.InOrder, Packet.mac, ← hspec]
    cases result with
    | none => simp
    | some ip => simp
  · cases h
    simp [Exchange.Proper, Packet.InOrder]
  · have hrequest : s.handleRequest now mac (some ip) = .ok (reply, s') := h
    have hspec := DhcpdState.handleRequest_ack_iff hrequest
    have hnever := DhcpdState.handleRequest_ne_offer hrequest r.ip
    simp only [Exchange.Proper, Packet.InOrder, Packet.mac, hspec, hnever, false_or,
      Option.some.injEq, Packet.message.injEq, Message.request.injEq]
    constructor
    · rintro ⟨hother, htaken⟩
      exact ⟨fun hip hpool hfree => hother ⟨hip, hpool, hfree⟩,
        fun a ha hoffered _ => (htaken mac a ⟨rfl, ha⟩ hoffered).2⟩
    · rintro ⟨hother, htaken⟩
      refine ⟨fun h => hother h.1 h.2.1 h.2.2, ?_⟩
      rintro _ a ⟨rfl, rfl⟩ hoffered
      refine ⟨rfl, ?_⟩
      by_cases hbound : s.Bound mac ip
      · exact htaken ip rfl hoffered hbound
      · exact free_of_offer (hoffered ▸ hoffer) hbound
  · cases h
    simp [Exchange.Proper, Packet.InOrder]
  · cases h
    simp [Exchange.Proper, Packet.InOrder]
  · cases h
    simp [Exchange.Proper, Packet.InOrder, Packet.mac, handleInform]

theorem step_kept_iff {r : Reservation} {s s' : System} {p : Nat × Packet}
    (hoffer : OfferMade s.server s.now s.offered) (h : step s p = .ok s') :
    Kept r s' ↔ p.2.InOrder r s.server s.offered (s.now + p.1) := by
  obtain ⟨⟨reply, server⟩, hprocess, h⟩ := bind_eq_ok_iff.mp h
  cases h
  have hlater : OfferMade s.server (s.now + p.1) s.offered := fun mac ip heq =>
    (hoffer mac ip heq).imp fun _ h => ⟨Nat.le_add_right_of_le h.1, h.2⟩
  rw [← processPacket_proper_iff hlater hprocess]
  exact ⟨fun hkept => hkept _ rfl, fun hproper x hx => Option.some.inj hx ▸ hproper⟩

theorem step_offerMade {s s' : System} {p : Nat × Packet} (h : step s p = .ok s') :
    OfferMade s'.server s'.now s'.offered := by
  obtain ⟨⟨reply, server⟩, hprocess, h⟩ := bind_eq_ok_iff.mp h
  cases h
  intro mac ip hoffer
  obtain ⟨ticks, (⟨mac'⟩ | _ | _ | _) | _⟩ := p
  · obtain ⟨result, hresult, hreply⟩ := bind_eq_ok_iff.mp hprocess
    cases hreply
    cases result with
    | none => cases hoffer
    | some given =>
      cases hoffer
      exact ⟨_, le_rfl, (DhcpdState.of_allocateIp hresult _).mp rfl⟩
  all_goals cases hoffer

/-- After a reservation, in every run, the reserved address goes to nobody else and every offer
that is taken up at once is acknowledged, exactly when all packets of the run are in order. -/
theorem always_kept_iff (server : DhcpdState) (now : Nat) (r : Reservation)
    (packets : List (Nat × Packet)) :
    Always step (Kept r) (.reserved server now r) packets ↔
      Guarded step (InOrder r) (.reserved server now r) packets := by
  refine always_iff_guarded (fun s => Kept r s ∧ OfferMade s.server s.now s.offered)
    (fun _ h => h.1) ?_ ?_ ⟨fun x hx => ?_, fun mac ip h => ?_⟩ packets
  · intro s p s' hs hguard hstep
    exact ⟨(step_kept_iff hs.2 hstep).mpr (hguard s' hstep), step_offerMade hstep⟩
  · intro s p hs hmiss
    unfold InOrder at hmiss
    push Not at hmiss
    obtain ⟨s', hstep, hbad⟩ := hmiss
    exact ⟨s', hstep, fun hkept => hbad ((step_kept_iff hs.2 hstep).mp hkept)⟩
  · cases hx
  · cases h

def firstReserved : Reservation := ⟨⟨0, 0, 0, 0, 0, 1⟩, ⟨10, 0, 0, 1⟩⟩

/-- A pool of two addresses, the first of which is reserved. -/
def twoAddresses : System :=
  .reserved ⟨⟨⟨10, 0, 0, 1⟩, ⟨10, 0, 0, 2⟩, 3600⟩, [], []⟩ 0 firstReserved

/-- Another client is offered the first, and an INFORM of another client with it is
acknowledged. -/
theorem reserved_address_offered :
    (∃ s, run step twoAddresses [(0, .message (.discover ⟨0, 0, 0, 0, 0, 2⟩))] = .ok s ∧
      ¬ Kept firstReserved s) ∧
    ∃ s, run step twoAddresses [(0, .inform ⟨0, 0, 0, 0, 0, 2⟩ ⟨10, 0, 0, 1⟩)] = .ok s ∧
      ¬ Kept firstReserved s := by
  refine ⟨⟨_, rfl, fun hkept => ?_⟩, ⟨_, rfl, fun hkept => ?_⟩⟩
  · exact absurd ((hkept _ rfl).1 (.inl rfl)) (by decide)
  · exact absurd ((hkept _ rfl).1 (.inr rfl)) (by decide)

end MerlionKernel.Dhcp
