import Mathlib.Data.Fintype.EquivFin
import Mathlib.Data.Fintype.Basic
import MerlionKernel.Dhcp.Reservation

/-!
# One client for every address

Messages reach the server one after the other, at times that do not decrease. No two clients
hold the same address, and every ACK is recorded, as long as a request is only acknowledged
when no other client holds the address. The server does not see to that: it looks at the first
active lease on the address, and a lease that is over stays active until its entry is used
again. So a lease that is over hides a later one on the same address.
-/

namespace MerlionKernel.Dhcp

open Rust Net Theory

/-! ### Granting and releasing -/

instance (l : Lease) (now : Nat) : Decidable (l.UnexpiredAt now) :=
  inferInstanceAs (Decidable (_ ∧ _))

/-- The entry that `firstFree` finds holds nothing; without one, all entries hold. -/
theorem of_firstFree {now : Nat} {ls : List Lease} {r : Option Nat}
    (h : firstFree now ls = .ok r) :
    match r with
    | some i => ∃ l, ls[i]? = some l ∧ ¬ l.UnexpiredAt now
    | none => ∀ l ∈ ls, l.UnexpiredAt now := by
  induction ls generalizing r with
  | nil =>
    cases h
    exact fun l hl => absurd hl List.not_mem_nil
  | cons l ls ih =>
    unfold firstFree at h
    by_cases hactive : l.active
    · simp only [hactive, Bool.not_true, Bool.false_eq_true, if_false] at h
      obtain ⟨b, hb, h⟩ := bind_eq_ok_iff.mp h
      have hexpired := Lease.isExpired_eq_iff hb
      cases b with
      | true =>
        cases h
        exact ⟨l, rfl, fun hun => Bool.noConfusion (hexpired.mpr hun)⟩
      | false =>
        obtain ⟨r', hr', h⟩ := bind_eq_ok_iff.mp h
        cases h
        have hrest := ih hr'
        cases r' with
        | some i => exact hrest
        | none => exact List.forall_mem_cons.mpr ⟨hexpired.mp rfl, hrest⟩
    · simp only [hactive, Bool.not_false, if_true, pure_eq_ok, Except.ok.injEq] at h
      subst h
      exact ⟨l, rfl, fun hun => hactive hun.1⟩

namespace DhcpdState

variable {s s' : DhcpdState} {now : Nat} {mac : MacAddr} {ip : Ipv4Addr}

/-- The lease that a grant records. -/
def newLease (s : DhcpdState) (now : Nat) (mac : MacAddr) (ip : Ipv4Addr) : Lease :=
  { mac, ip, duration := s.config.leaseDuration, grantedTick := now, active := true }

/-- What a grant does to the table: the new lease takes the place of the client's active
lease, or, if the client has none, of an entry that holds nothing or a new one. In a full
table that is held altogether nothing is recorded. -/
inductive GrantEffect (s : DhcpdState) (now : Nat) (mac : MacAddr) (ip : Ipv4Addr) :
    List Lease → Prop
  | renewed (i : Nat) (old : Lease) (hold : s.leases[i]? = some old) (hmac : old.mac = mac)
      (hactive : old.active) : GrantEffect s now mac ip (s.leases.set i (s.newLease now mac ip))
  | reused (i : Nat) (old : Lease) (hold : s.leases[i]? = some old)
      (hnew : ∀ l ∈ s.leases, l.active → l.mac ≠ mac) (hfree : ¬ old.UnexpiredAt now) :
      GrantEffect s now mac ip (s.leases.set i (s.newLease now mac ip))
  | added (hnew : ∀ l ∈ s.leases, l.active → l.mac ≠ mac) :
      GrantEffect s now mac ip (s.leases ++ [s.newLease now mac ip])
  | dropped (hnew : ∀ l ∈ s.leases, l.active → l.mac ≠ mac)
      (hfull : maxLeases ≤ s.leases.length) (hheld : ∀ l ∈ s.leases, l.UnexpiredAt now) :
      GrantEffect s now mac ip s.leases

theorem grantLease_effect (h : s.grantLease now mac ip = .ok s') :
    ∃ leases, GrantEffect s now mac ip leases ∧ s' = { s with leases } := by
  unfold grantLease at h
  dsimp only at h
  cases hfind : s.findLeaseByMac mac with
  | some i =>
    obtain ⟨old, hold, -, hown⟩ := find?_of_findIdx? hfind
    obtain ⟨rfl, hactive⟩ := of_decide_eq_true hown
    rw [hfind] at h
    dsimp only at h
    rw [index_eq_ok_iff.mpr hold, ok_bind] at h
    cases h
    exact ⟨_, .renewed i old hold rfl hactive, rfl⟩
  | none =>
    have hnew : ∀ l ∈ s.leases, l.active → l.mac ≠ mac := by
      intro l hl hactive hmac
      have hnot := List.findIdx?_eq_none_iff.mp hfind l hl
      simp [hmac, hactive] at hnot
    rw [hfind] at h
    obtain ⟨r, hr, h⟩ := bind_eq_ok_iff.mp h
    have hfree := of_firstFree hr
    cases r with
    | some i =>
      obtain ⟨old, hold, hfree⟩ := hfree
      cases h
      exact ⟨_, .reused i old hold hnew hfree, rfl⟩
    | none =>
      dsimp only at h
      split_ifs at h with hroom
      · cases h
        exact ⟨_, .added hnew, rfl⟩
      · cases h
        exact ⟨_, .dropped hnew (Nat.not_lt.mp hroom) hfree, rfl⟩

/-- An entry of the table after a release: an old one, or one that is not active. -/
theorem getElem?_releaseLease {i : Nat} {l : Lease} (h : (s.releaseLease mac).leases[i]? = some l)
    (hactive : l.active) : s.leases[i]? = some l := by
  unfold releaseLease at h
  cases hfind : s.findLeaseByMac mac with
  | none => rwa [hfind] at h
  | some j =>
    rw [hfind] at h
    simp only [List.getElem?_modify] at h
    by_cases hj : j = i
    · obtain ⟨old, -, rfl⟩ := Option.map_eq_some_iff.mp h
      simp [hj] at hactive
    · simpa [hj] using h

/-- An active entry of the table after a release. -/
theorem mem_of_mem_releaseLease {l : Lease} (h : l ∈ (s.releaseLease mac).leases)
    (hactive : l.active) : l ∈ s.leases := by
  obtain ⟨i, hi⟩ := List.getElem?_of_mem h
  exact List.mem_of_getElem? (getElem?_releaseLease hi hactive)

theorem config_releaseLease (s : DhcpdState) (mac : MacAddr) :
    (s.releaseLease mac).config = s.config := by
  unfold releaseLease
  split
  · rfl
  · rfl

/-! ### Messages -/

/-- The message is a REQUEST that the server acknowledges: for an address of the pool whose first
active lease is the client's own or over. -/
structure Admits (s : DhcpdState) (now : Nat) (m : Message) (mac : MacAddr) (ip : Ipv4Addr) :
    Prop where
  message : m = .request mac (some ip)
  pool : s.ipInPool ip = true
  free : ¬ s.HeldByOther now mac ip

end DhcpdState

/-- The client and the address of a reply that is an ACK. -/
def acknowledged : Message → Option Reply → Option (MacAddr × Ipv4Addr)
  | .request mac _, some (.ack ip) => some (mac, ip)
  | _, _ => none

/-- What a message does to the server, and what it acknowledges. -/
inductive MessageEffect (s : DhcpdState) (now : Nat) (m : Message) :
    Option (MacAddr × Ipv4Addr) → DhcpdState → Prop
  | quiet (hnot : ∀ mac ip, ¬ s.Admits now m mac ip) : MessageEffect s now m none s
  | released (mac : MacAddr) (hnot : ∀ mac ip, ¬ s.Admits now m mac ip) :
      MessageEffect s now m none (s.releaseLease mac)
  | granted (mac : MacAddr) (ip : Ipv4Addr) (leases : List Lease)
      (hadmits : s.Admits now m mac ip) (hgrant : s.GrantEffect now mac ip leases) :
      MessageEffect s now m (some (mac, ip)) { s with leases }

theorem handleRequest_effect {s s' : DhcpdState} {now : Nat} {mac : MacAddr} {ip : Ipv4Addr}
    {reply : Option Reply} (h : s.handleRequest now mac (some ip) = .ok (reply, s')) :
    MessageEffect s now (.request mac (some ip))
      (acknowledged (.request mac (some ip)) reply) s' := by
  unfold DhcpdState.handleRequest at h
  dsimp only at h
  cases hpool : s.ipInPool ip with
  | false =>
    rw [hpool] at h
    cases h
    apply MessageEffect.quiet
    rintro _ _ ⟨hmessage, hin, -⟩
    cases hmessage
    rw [hpool] at hin
    cases hin
  | true =>
    rw [hpool] at h
    obtain ⟨held, hheld, h⟩ := bind_eq_ok_iff.mp h
    have hspec := DhcpdState.of_heldByOther hheld
    cases held with
    | true =>
      cases h
      apply MessageEffect.quiet
      rintro _ _ ⟨hmessage, -, hfree⟩
      cases hmessage
      exact hfree (hspec.mp rfl)
    | false =>
      obtain ⟨server, hgrant, h⟩ := bind_eq_ok_iff.mp h
      cases h
      obtain ⟨leases, heffect, rfl⟩ := DhcpdState.grantLease_effect hgrant
      have hfree : ¬ s.HeldByOther now mac ip := fun hother => Bool.noConfusion (hspec.mpr hother)
      exact .granted mac ip leases ⟨rfl, hpool, hfree⟩ heffect

theorem handle_effect {s s' : DhcpdState} {now : Nat} {m : Message} {reply : Option Reply}
    (h : s.handle now m = .ok (reply, s')) :
    MessageEffect s now m (acknowledged m reply) s' := by
  -- Only a REQUEST with an address can be one that the server acknowledges.
  have hquiet : (∀ mac ip, m ≠ .request mac (some ip)) → ∀ mac ip, ¬ s.Admits now m mac ip :=
    fun hne mac ip hadmits => hne mac ip hadmits.message
  cases m with
  | discover mac =>
    obtain ⟨ip, -, h⟩ := bind_eq_ok_iff.mp h
    cases h
    exact .quiet (hquiet fun _ _ hm => Message.noConfusion hm)
  | request mac requested =>
    cases requested with
    | none =>
      cases h
      exact .quiet (hquiet fun _ _ hm => by cases hm)
    | some ip => exact handleRequest_effect h
  | release mac =>
    cases h
    exact .released mac (hquiet fun _ _ hm => Message.noConfusion hm)
  | decline mac =>
    cases h
    exact .released mac (hquiet fun _ _ hm => Message.noConfusion hm)

/-! ### The system -/

/-- `DEFAULT_LEASE_SECS`. -/
def defaultLeaseSecs : Nat := 3600

/-- The server, the time, and the client and the address of the last reply if it is an ACK. -/
structure Timed where
  server : DhcpdState
  now : Nat
  acked : Option (MacAddr × Ipv4Addr)
  deriving DecidableEq

/-- Receive a message, some time after the one before. -/
def receive (s : Timed) (m : Nat × Message) : Exec Timed := do
  let now ← u64 (s.now + m.1)
  let (reply, server) ← s.server.handle now m.2
  return { server, now, acked := acknowledged m.2 reply }

/-- The server is started with a pool and with reservations. -/
def Timed.start (poolStart poolEnd : Ipv4Addr) (reservations : List Reservation) : Timed where
  server := { config := ⟨poolStart, poolEnd, defaultLeaseSecs⟩, leases := [], reservations }
  now := 0
  acked := none

/-- No address is held by two clients. -/
def UniqueAt (leases : List Lease) (now : Nat) : Prop :=
  ∀ l ∈ leases, ∀ l' ∈ leases, l.UnexpiredAt now → l'.UnexpiredAt now → l.ip = l'.ip →
    l.mac = l'.mac

/-- The client holds the address. -/
def Recorded (leases : List Lease) (now : Nat) (mac : MacAddr) (ip : Ipv4Addr) : Prop :=
  ∃ l ∈ leases, l.UnexpiredAt now ∧ l.mac = mac ∧ l.ip = ip

/-- No other client holds the address. -/
def FreeFor (leases : List Lease) (now : Nat) (mac : MacAddr) (ip : Ipv4Addr) : Prop :=
  ∀ l ∈ leases, l.UnexpiredAt now → l.ip = ip → l.mac = mac

/-- From now on no address is held by two clients, and an ACK is for an address that the client
holds. -/
structure Exclusive (s : Timed) : Prop where
  unique : ∀ now, s.now ≤ now → UniqueAt s.server.leases now
  acked : ∀ mac ip, s.acked = some (mac, ip) → Recorded s.server.leases s.now mac ip

/-- A message that is processed is not an acknowledged REQUEST for an address that another client
holds. -/
def Careful (s : Timed) (m : Nat × Message) : Prop :=
  ∀ s', receive s m = .ok s' → ∀ mac ip, s.server.Admits (s.now + m.1) m.2 mac ip →
    FreeFor s.server.leases (s.now + m.1) mac ip

/-! ### One holder -/

theorem UniqueAt.mono {leases : List Lease} {now now' : Nat} (h : UniqueAt leases now)
    (hle : now ≤ now') : UniqueAt leases now' :=
  fun l hl l' hl' hun hun' => h l hl l' hl' (hun.mono hle) (hun'.mono hle)

/-- A client has at most one active lease. -/
def OnePerMac (leases : List Lease) : Prop :=
  ∀ (i j : Nat) (l l' : Lease), leases[i]? = some l → leases[j]? = some l' → l.active → l'.active →
    l.mac = l'.mac → i = j

/-- A table with one new lease, beside which only old entries of other clients are active. -/
theorem OnePerMac.of_new {leases leases' : List Lease} (h : OnePerMac leases) {i : Nat}
    {new : Lease}
    (hcases : ∀ j l, leases'[j]? = some l →
      (j = i ∧ l = new) ∨ (leases[j]? = some l ∧ (l.active → l.mac ≠ new.mac))) :
    OnePerMac leases' := by
  intro j k l l' hl hl' hactive hactive' hmac
  rcases hcases j l hl with ⟨rfl, rfl⟩ | ⟨hold, hother⟩
  · rcases hcases k l' hl' with ⟨rfl, -⟩ | ⟨-, hother'⟩
    · rfl
    · exact absurd hmac.symm (hother' hactive')
  · rcases hcases k l' hl' with ⟨rfl, rfl⟩ | ⟨hold', -⟩
    · exact absurd hmac (hother hactive)
    · exact h j k l l' hold hold' hactive hactive' hmac

/-- Replacing an entry, when no other one is an active lease of the client. -/
theorem OnePerMac.set {leases : List Lease} (h : OnePerMac leases) {i : Nat} {new : Lease}
    (hother : ∀ j l, leases[j]? = some l → l.active → l.mac = new.mac → j = i) :
    OnePerMac (leases.set i new) := by
  apply h.of_new
  intro j l hl
  by_cases hj : j = i
  · subst hj
    have hlt := (List.getElem?_eq_some_iff.mp hl).1
    rw [List.length_set] at hlt
    rw [List.getElem?_set_self hlt, Option.some.injEq] at hl
    exact .inl ⟨rfl, hl.symm⟩
  · rw [List.getElem?_set_ne (Ne.symm hj)] at hl
    exact .inr ⟨hl, fun hactive hmac => hj (hother j l hl hactive hmac)⟩

theorem OnePerMac.concat {leases : List Lease} (h : OnePerMac leases) {new : Lease}
    (hnew : ∀ l ∈ leases, l.active → l.mac ≠ new.mac) : OnePerMac (leases ++ [new]) := by
  apply h.of_new
  intro j l hl
  rcases Nat.lt_or_ge j leases.length with hj | hj
  · rw [List.getElem?_append_left hj] at hl
    exact .inr ⟨hl, hnew l (List.mem_of_getElem? hl)⟩
  · rw [List.getElem?_append_right hj, List.getElem?_singleton] at hl
    split_ifs at hl with hzero
    exact .inl ⟨Nat.le_antisymm (Nat.le_of_sub_eq_zero hzero) hj, (Option.some.inj hl).symm⟩

namespace DhcpdState

variable {s : DhcpdState} {now : Nat} {mac : MacAddr} {ip : Ipv4Addr} {leases : List Lease}

/-- An entry after a grant is the new lease or an old entry. -/
theorem GrantEffect.mem (h : GrantEffect s now mac ip leases) {l : Lease} (hl : l ∈ leases) :
    l = s.newLease now mac ip ∨ l ∈ s.leases := by
  cases h with
  | renewed i old => exact (List.mem_or_eq_of_mem_set hl).symm
  | reused i old => exact (List.mem_or_eq_of_mem_set hl).symm
  | added => exact (List.mem_append.mp hl).symm.imp_left List.mem_singleton.mp
  | dropped => exact .inr hl

/-- A grant takes no lease away from another client. -/
theorem GrantEffect.mem_of_holder (h : GrantEffect s now mac ip leases) {l : Lease}
    (hl : l ∈ s.leases) (hun : l.UnexpiredAt now) (hmac : l.mac ≠ mac) : l ∈ leases := by
  have hset : ∀ {i : Nat} {old new : Lease}, s.leases[i]? = some old → l ≠ old →
      l ∈ s.leases.set i new := by
    intro i old new hold hne
    obtain ⟨j, hj⟩ := List.getElem?_of_mem hl
    have hij : i ≠ j := by
      rintro rfl
      exact hne (Option.some.inj (hj.symm.trans hold))
    apply List.mem_of_getElem?
    rwa [List.getElem?_set_ne hij]
  cases h with
  | renewed i old hold hmac' => exact hset hold fun heq => hmac (heq ▸ hmac')
  | reused i old hold _ hfree => exact hset hold fun heq => hfree (heq ▸ hun)
  | added => exact List.mem_append_left _ hl
  | dropped => exact hl

theorem GrantEffect.onePerMac (h : GrantEffect s now mac ip leases) (hone : OnePerMac s.leases) :
    OnePerMac leases := by
  cases h with
  | renewed i old hold hmac hactive =>
    apply hone.set
    intro j l hl hactive' hmac'
    exact hone j i l old hl hold hactive' hactive (hmac'.trans hmac.symm)
  | reused i old hold hnew hfree =>
    apply hone.set
    intro j l hl hactive' hmac'
    exact absurd hmac' (hnew l (List.mem_of_getElem? hl) hactive')
  | added hnew => exact hone.concat hnew
  | dropped => exact hone

/-- A grant of an address that no other client holds. -/
theorem GrantEffect.uniqueAt (h : GrantEffect s now mac ip leases)
    (hunique : UniqueAt s.leases now) (hfree : FreeFor s.leases now mac ip) :
    UniqueAt leases now := by
  intro l hl l' hl' hun hun' hip
  rcases h.mem hl with rfl | hold
  · rcases h.mem hl' with rfl | hold'
    · rfl
    · exact (hfree l' hold' hun' hip.symm).symm
  · rcases h.mem hl' with rfl | hold'
    · exact hfree l hold hun hip
    · exact hunique l hold l' hold' hun hun' hip

/-- Two addresses of the pool with the same last octet are equal. -/
theorem ipInPool_inj {ip ip' : Ipv4Addr} (h : s.ipInPool ip) (h' : s.ipInPool ip')
    (hd : ip.d = ip'.d) : ip = ip' := by
  unfold ipInPool at h h'
  obtain ⟨ha, hb, hc, -⟩ := of_decide_eq_true h
  obtain ⟨ha', hb', hc', -⟩ := of_decide_eq_true h'
  rw [Ipv4Addr.mk.injEq]
  exact ⟨ha.trans ha'.symm, hb.trans hb'.symm, hc.trans hc'.symm, hd⟩

/-- When all entries of a full table are leases of different clients on different addresses of the
pool, every address of the pool is among them. -/
theorem exists_holder_of_full (hfull : maxLeases ≤ s.leases.length)
    (hheld : ∀ l ∈ s.leases, l.UnexpiredAt now) (hpool : ∀ l ∈ s.leases, s.ipInPool l.ip)
    (hone : OnePerMac s.leases) (hunique : UniqueAt s.leases now) (hip : s.ipInPool ip) :
    ∃ l ∈ s.leases, l.ip = ip := by
  have hmem : ∀ i : Fin maxLeases, ∃ l, s.leases[i.1]? = some l := fun i =>
    ⟨_, List.getElem?_eq_getElem (i.2.trans_le hfull)⟩
  choose lease hlease using hmem
  have hin : ∀ i, lease i ∈ s.leases := fun i => List.mem_of_getElem? (hlease i)
  -- The last octets of the leases are different, so all octets occur.
  let octet : Fin maxLeases → Fin maxLeases := fun i => ⟨(lease i).ip.d.toNat, UInt8.toNat_lt _⟩
  have hinj : Function.Injective octet := by
    intro i j hij
    have hd : (lease i).ip.d = (lease j).ip.d := UInt8.toNat_inj.mp (Fin.mk.inj hij)
    have hsame := ipInPool_inj (hpool _ (hin i)) (hpool _ (hin j)) hd
    have hmac := hunique _ (hin i) _ (hin j) (hheld _ (hin i)) (hheld _ (hin j)) hsame
    exact Fin.ext (hone _ _ _ _ (hlease i) (hlease j) (hheld _ (hin i)).1 (hheld _ (hin j)).1 hmac)
  obtain ⟨i, hi⟩ := Finite.injective_iff_surjective.mp hinj ⟨ip.d.toNat, UInt8.toNat_lt _⟩
  exact ⟨lease i, hin i, ipInPool_inj (hpool _ (hin i)) hip (UInt8.toNat_inj.mp (Fin.mk.inj hi))⟩

/-- A grant of an address of the pool that no other client holds is recorded. -/
theorem GrantEffect.recorded (h : GrantEffect s now mac ip leases)
    (hlasting : 0 < s.config.leaseDuration) (hpool : ∀ l ∈ s.leases, l.active → s.ipInPool l.ip)
    (hone : OnePerMac s.leases) (hunique : UniqueAt s.leases now) (hip : s.ipInPool ip)
    (hfree : FreeFor s.leases now mac ip) : Recorded leases now mac ip := by
  have hun : (s.newLease now mac ip).UnexpiredAt now :=
    ⟨rfl, Nat.lt_add_of_pos_right (Nat.mul_pos hlasting (by decide))⟩
  cases h with
  | renewed i old hold =>
    have hi := (List.getElem?_eq_some_iff.mp hold).1
    exact ⟨_, List.mem_set hi _, hun, rfl, rfl⟩
  | reused i old hold =>
    have hi := (List.getElem?_eq_some_iff.mp hold).1
    exact ⟨_, List.mem_set hi _, hun, rfl, rfl⟩
  | added => exact ⟨_, List.mem_append_right _ (List.mem_singleton_self _), hun, rfl, rfl⟩
  | dropped hnew hfull hheld =>
    -- The address has a holder, which can only be the client, and the client has no lease.
    obtain ⟨l, hl, hlip⟩ := exists_holder_of_full hfull hheld
      (fun l hl => hpool l hl (hheld l hl).1) hone hunique hip
    exact absurd (hfree l hl (hheld l hl) hlip) (hnew l hl (hheld l hl).1)

end DhcpdState

/-- What a message does to the system. -/
theorem receive_effect {s s' : Timed} {m : Nat × Message} (h : receive s m = .ok s') :
    ∃ acked server, MessageEffect s.server (s.now + m.1) m.2 acked server ∧
      s' = { server, now := s.now + m.1, acked } := by
  obtain ⟨now, hnow, h⟩ := bind_eq_ok_iff.mp h
  obtain ⟨-, rfl⟩ := u64_eq_ok_iff.mp hnow
  obtain ⟨⟨reply, server⟩, hhandle, h⟩ := bind_eq_ok_iff.mp h
  exact ⟨_, server, handle_effect hhandle, (Except.ok.inj h).symm⟩

/-- The invariant of the careful runs. -/
structure Sound (s : Timed) : Prop where
  lasting : 0 < s.server.config.leaseDuration
  pool : ∀ l ∈ s.server.leases, l.active → s.server.ipInPool l.ip
  onePerMac : OnePerMac s.server.leases
  uniqueAt : UniqueAt s.server.leases s.now
  acked : ∀ mac ip, s.acked = some (mac, ip) → Recorded s.server.leases s.now mac ip

theorem Sound.exclusive {s : Timed} (h : Sound s) : Exclusive s where
  unique _ hle := h.uniqueAt.mono hle
  acked := h.acked

/-- A release only takes leases away. -/
theorem Sound.release {s : Timed} (h : Sound s) (mac : MacAddr) {now : Nat} (hle : s.now ≤ now) :
    Sound { server := s.server.releaseLease mac, now, acked := none } := by
  have hold : ∀ l ∈ (s.server.releaseLease mac).leases, l.active → l ∈ s.server.leases :=
    fun l hl hactive => DhcpdState.mem_of_mem_releaseLease hl hactive
  refine ⟨?_, ?_, ?_, ?_, ?_⟩
  · show 0 < (s.server.releaseLease mac).config.leaseDuration
    rw [DhcpdState.config_releaseLease]
    exact h.lasting
  · intro l hl hactive
    simp only [DhcpdState.ipInPool, DhcpdState.config_releaseLease]
    exact h.pool l (hold l hl hactive) hactive
  · intro i j l l' hl hl' hactive hactive' hmac
    exact h.onePerMac i j l l' (DhcpdState.getElem?_releaseLease hl hactive)
      (DhcpdState.getElem?_releaseLease hl' hactive') hactive hactive' hmac
  · intro l hl l' hl' hun hun' hip
    exact h.uniqueAt l (hold l hl hun.1) l' (hold l' hl' hun'.1) (hun.mono hle) (hun'.mono hle) hip
  · intro mac ip hacked
    cases hacked

theorem Sound.receive {s s' : Timed} {m : Nat × Message} (h : Sound s) (hcareful : Careful s m)
    (hstep : receive s m = .ok s') : Sound s' := by
  have hle : s.now ≤ s.now + m.1 := Nat.le_add_right _ _
  obtain ⟨acked, server, heffect, rfl⟩ := receive_effect hstep
  cases heffect with
  | quiet hnot =>
    refine ⟨h.lasting, h.pool, h.onePerMac, h.uniqueAt.mono hle, fun mac ip hacked => ?_⟩
    cases hacked
  | released mac hnot => exact h.release mac hle
  | granted mac ip leases hadmits hgrant =>
    have hfree := hcareful _ hstep mac ip hadmits
    have hunique := h.uniqueAt.mono hle
    refine ⟨h.lasting, fun l hl hactive => ?_, hgrant.onePerMac h.onePerMac,
      hgrant.uniqueAt hunique hfree, fun mac' ip' hacked => ?_⟩
    · rcases hgrant.mem hl with rfl | hold
      · exact hadmits.pool
      · exact h.pool l hold hactive
    · cases hacked
      exact hgrant.recorded h.lasting h.pool h.onePerMac hunique hadmits.pool hfree

/-- A REQUEST that is acknowledged for an address of another client leaves the address with two
holders or is not recorded. -/
theorem not_exclusive_of_not_careful {s : Timed} {m : Nat × Message} (hcareful : ¬ Careful s m) :
    ∃ s', receive s m = .ok s' ∧ ¬ Exclusive s' := by
  unfold Careful FreeFor at hcareful
  push Not at hcareful
  obtain ⟨s', hstep, mac, ip, hadmits, l, hl, hun, hip, hmac⟩ := hcareful
  refine ⟨s', hstep, fun hexclusive => ?_⟩
  obtain ⟨acked, server, heffect, rfl⟩ := receive_effect hstep
  cases heffect with
  | quiet hnot => exact hnot mac ip hadmits
  | released _ hnot => exact hnot mac ip hadmits
  | granted mac' ip' leases hadmits' hgrant =>
    cases hadmits'.message.symm.trans hadmits.message
    obtain ⟨m, hm, hmun, hmmac, hmip⟩ := hexclusive.acked mac ip rfl
    have hkept := hgrant.mem_of_holder hl hun hmac
    have hsame := hexclusive.unique _ le_rfl l hkept m hm hun hmun (hip.trans hmip.symm)
    exact hmac (hsame.trans hmmac)

theorem sound_start (poolStart poolEnd : Ipv4Addr) (reservations : List Reservation) :
    Sound (.start poolStart poolEnd reservations) := by
  refine ⟨show 0 < defaultLeaseSecs by decide, ?_, ?_, ?_, ?_⟩
  · exact fun l hl => absurd hl List.not_mem_nil
  · intro i j l l' hl
    cases hl
  · exact fun l hl => absurd hl List.not_mem_nil
  · intro mac ip hacked
    cases hacked

/-- In a run from any configuration no address ever has two holders, and every ACK is recorded,
exactly when the server never acknowledges a REQUEST for an address that another client holds. -/
theorem always_exclusive_iff (poolStart poolEnd : Ipv4Addr) (reservations : List Reservation)
    (messages : List (Nat × Message)) :
    Always receive Exclusive (.start poolStart poolEnd reservations) messages ↔
      Guarded receive Careful (.start poolStart poolEnd reservations) messages :=
  always_iff_guarded Sound (fun _ h => h.exclusive)
    (fun _ _ _ h hcareful hstep => h.receive hcareful hstep)
    (fun _ _ _ hcareful => not_exclusive_of_not_careful hcareful)
    (sound_start poolStart poolEnd reservations) messages

/-- A REQUEST of the client `0:0:0:0:0:client` for the address `10.0.0.last`. -/
def requestOf (client last : UInt8) : Message :=
  .request ⟨0, 0, 0, 0, 0, client⟩ (some ⟨10, 0, 0, last⟩)

/-- Two clients take an address each. When both leases are over, the second one takes the address of
the first in its own entry; the entry of the first still stands before it when a third client asks
for the address. Then the second and the third client hold the address `10.0.0.5`. -/
theorem two_holders_of_hiddenHolder :
    ∃ s, run receive (.start ⟨10, 0, 0, 1⟩ ⟨10, 0, 0, 9⟩ [])
        [(0, requestOf 1 5), (0, requestOf 2 6), (360000, requestOf 2 5), (0, requestOf 3 5)] =
          .ok s ∧
      s.server.leases =
        [⟨⟨0, 0, 0, 0, 0, 3⟩, ⟨10, 0, 0, 5⟩, 3600, 360000, true⟩,
          ⟨⟨0, 0, 0, 0, 0, 2⟩, ⟨10, 0, 0, 5⟩, 3600, 360000, true⟩] ∧
      ¬ Exclusive s := by
  refine ⟨?s, ?hrun, ?hleases, ?hnot⟩
  case s => exact {
    server := {
      config := ⟨⟨10, 0, 0, 1⟩, ⟨10, 0, 0, 9⟩, 3600⟩
      leases :=
        [⟨⟨0, 0, 0, 0, 0, 3⟩, ⟨10, 0, 0, 5⟩, 3600, 360000, true⟩,
          ⟨⟨0, 0, 0, 0, 0, 2⟩, ⟨10, 0, 0, 5⟩, 3600, 360000, true⟩]
      reservations := [] }
    now := 360000
    acked := some (⟨0, 0, 0, 0, 0, 3⟩, ⟨10, 0, 0, 5⟩) }
  case hrun => decide +kernel
  case hleases => rfl
  case hnot =>
    intro hexclusive
    have hsame := hexclusive.unique 360000 le_rfl _ List.mem_cons_self _
      (List.mem_cons_of_mem _ List.mem_cons_self) (by decide) (by decide) rfl
    exact absurd hsame (by decide)

end MerlionKernel.Dhcp
