import MerlionKernel.Wireguard.Transport

/-!
# What the tunnel accepts

A transport message is accepted when the receive key of some peer gives the tag at its end. Nothing
else about the message matters, and nothing that was received before: the counter is not part of
what the tag covers, and the counter that a peer keeps is never compared with it. So a message that
is accepted once is accepted again, and with every other counter.

The associated data is covered by the tag, up to collisions of the keyed hash.
-/

namespace MerlionKernel.Wireguard

open Rust

/-! ### Runs -/

namespace WgInterface

/-- What decides which messages a peer opens. -/
def recvSide (peer : WgPeer) : Bool × Key := (peer.handshakeComplete, peer.recvKey)

theorem opens_congr {iface iface' : WgInterface} (hup : iface'.up = iface.up)
    (hkeys : iface'.peers.map recvSide = iface.peers.map recvSide) (message : Bytes) :
    Opens iface' message ↔ Opens iface message := by
  have hany : ∀ peers : List WgPeer, (∃ p ∈ peers, p.opens (message.drop 13) = true) ↔
      ∃ k ∈ peers.map recvSide, (k.1 && decide (Verifies k.2 [] (message.drop 13))) = true := by
    intro peers
    simp only [List.mem_map, exists_exists_and_eq_and]
    rfl
  rw [Opens, Opens, hany, hany, hup, hkeys]

/-- No message changes which messages are opened. -/
theorem opens_decapsulate {iface iface' : WgInterface} {data : Bytes} {result : Option Bytes}
    (h : iface.decapsulate data = .ok (result, iface')) (message : Bytes) :
    Opens iface' message ↔ Opens iface message := by
  obtain ⟨hup, hkeys⟩ := decapsulate_keeps h
  exact opens_congr hup (hkeys recvSide fun _ _ _ => rfl) message

/-- Deliver messages one after another. -/
def deliver (iface : WgInterface) : List Bytes → Exec (List (Option Bytes) × WgInterface)
  | [] => return ([], iface)
  | message :: messages => do
    let (result, iface) ← iface.decapsulate message
    let (results, iface) ← iface.deliver messages
    return (result :: results, iface)

/-- The messages that an interface makes of some packets, up to the one where it stops. -/
def messages (iface : WgInterface) : List Bytes → List Bytes
  | [] => []
  | packet :: packets =>
    match iface.encapsulate packet with
    | .error _ => []
    | .ok (.error _, iface) => iface.messages packets
    | .ok (.ok message, iface) => message :: iface.messages packets

/-- A run of deliveries changes none of what is opened, and what is not opened is rejected. -/
theorem deliver_returns {iface iface' : WgInterface} {data : List Bytes}
    {results : List (Option Bytes)} (h : iface.deliver data = .ok (results, iface'))
    (message : Bytes) :
    (Opens iface' message ↔ Opens iface message) ∧
      (¬ Opens iface message → ∀ r ∈ data.zip results, r.1 = message → r.2 = none) := by
  induction data generalizing iface results with
  | nil =>
    cases h
    exact ⟨Iff.rfl, fun _ r hr => absurd hr List.not_mem_nil⟩
  | cons d data ih =>
    rw [deliver, bind_eq_ok_iff] at h
    obtain ⟨⟨result, next⟩, hdec, h⟩ := h
    rw [bind_eq_ok_iff] at h
    obtain ⟨⟨results', last⟩, hrest, h⟩ := h
    cases h
    have hsame := opens_decapsulate hdec message
    obtain ⟨hopens, hnone⟩ := ih hrest
    refine ⟨hopens.trans hsame, fun hclosed r hr heq => ?_⟩
    rcases List.mem_cons.mp hr with rfl | hr
    · dsimp only at heq hdec ⊢
      subst heq
      rw [decapsulate_of_not_opens hclosed] at hdec
      cases hdec
      rfl
    · exact hnone (fun h => hclosed (hsame.mp h)) r hr heq

/-- Every message has the form of a transport message. -/
theorem mem_messages {iface : WgInterface} {packets : List Bytes} {message : Bytes}
    (h : message ∈ iface.messages packets) :
    ∃ nonce body, nonce + 1 < 2 ^ 64 ∧ message = transport nonce body := by
  induction packets generalizing iface with
  | nil => cases h
  | cons packet packets ih =>
    rw [messages] at h
    split at h
    · cases h
    · exact ih h
    · next made next hsent =>
      rcases List.mem_cons.mp h with rfl | h
      · obtain ⟨_, herror, -⟩ | ⟨_, _, p, _, -, -, -, hnonce, hok, hmade, -⟩ :=
          encapsulate_cases hsent
        · cases herror
        · cases hok
          exact ⟨p.sendNonce, _, hnonce, hmade⟩
      · exact ih h

end WgInterface

open WgInterface

/-! ### Protection of messages -/

/-- A message with another counter. -/
def withCounter (message : Bytes) (c : Nat) : Bytes :=
  message.take 5 ++ (toLe 8 c ++ message.drop 13)

theorem withCounter_transport (nonce : Nat) (body : Bytes) (c : Nat) :
    withCounter (transport nonce body) c = transport c body := by
  rw [withCounter, drop_transport]
  rfl

/-- However often and between whatever else the message is delivered, it is accepted once at
most. -/
def AtMostOnce (receiver : WgInterface) (message : Bytes) : Prop :=
  ∀ data results receiver', receiver.deliver data = .ok (results, receiver') →
    (data.zip results).countP (fun r => r.1 = message ∧ r.2.isSome) ≤ 1

/-- Whatever is delivered before, the message is rejected with every other counter. -/
def CounterBound (receiver : WgInterface) (message : Bytes) : Prop :=
  ∀ data results receiver', receiver.deliver data = .ok (results, receiver') →
    ∀ c < 2 ^ 64, c ≠ counter message →
      ∃ receiver'', receiver'.decapsulate (withCounter message c) = .ok (none, receiver'')

/-- If the two inputs have the same tag, they are the same. -/
def NoCollision (key : Key) (x y : Bytes) : Prop :=
  computeMac key [] x = computeMac key [] y → x = y

theorem atMostOnce_of_not_opens {receiver : WgInterface} {message : Bytes}
    (h : ¬ Opens receiver message) : AtMostOnce receiver message := by
  intro data results receiver' hdeliver
  have hnone := (deliver_returns hdeliver message).2 h
  have hcount : (data.zip results).countP (fun r => r.1 = message ∧ r.2.isSome) = 0 := by
    rw [List.countP_eq_zero]
    intro r hr haccepted
    obtain ⟨heq, hsome⟩ := of_decide_eq_true haccepted
    rw [hnone r hr heq] at hsome
    cases hsome
  omega

/-- The counter is outside of what the tag covers. -/
theorem opens_withCounter (receiver : WgInterface) (nonce : Nat) (body : Bytes) (c : Nat) :
    Opens receiver (withCounter (transport nonce body) c) ↔
      Opens receiver (transport nonce body) := by
  rw [withCounter_transport, Opens, Opens, drop_transport, drop_transport]

theorem counterBound_iff {receiver : WgInterface} {nonce : Nat} {body : Bytes}
    (hnonce : nonce < 2 ^ 64) :
    CounterBound receiver (transport nonce body) ↔ ¬ Opens receiver (transport nonce body) := by
  constructor
  · intro hbound hopens
    -- 0 or 1 is another counter
    obtain ⟨c, hc, hne⟩ : ∃ c < 2 ^ 64, c ≠ nonce := by
      by_cases hzero : nonce = 0
      · exact ⟨1, by omega, by omega⟩
      · exact ⟨0, by omega, by omega⟩
    obtain ⟨receiver'', hrejected⟩ :=
      hbound [] [] receiver rfl c hc (by rwa [counter_transport _ hnonce])
    rw [withCounter_transport] at hrejected
    refine decapsulate_ne_none_of_opens ?_ ?_ (index_transport c body) hrejected
    · rw [← withCounter_transport nonce]
      exact (opens_withCounter receiver nonce body c).mpr hopens
    · rw [length_transport]
      omega
  · intro hclosed data results receiver' hdeliver c _ _
    refine ⟨receiver', decapsulate_of_not_opens fun hopens => hclosed ?_⟩
    exact (deliver_returns hdeliver _).1.mp ((opens_withCounter receiver' nonce body c).mp hopens)

/-- Changed associated data is rejected when the keyed hash has no collision there. -/
theorem aeadDecrypt_of_changed_aad {key : Key} {nonce : Nat} {plaintext aad aad' : Bytes}
    (hne : aad' ≠ aad)
    (hmac : NoCollision key (aad ++ xor plaintext (keystream key nonce plaintext.length))
      (aad' ++ xor plaintext (keystream key nonce plaintext.length))) :
    aeadDecrypt key nonce (aeadEncrypt key nonce plaintext aad) aad' = none := by
  rw [aeadDecrypt_eq, if_neg]
  intro hverifies
  rw [verifies_aeadEncrypt] at hverifies
  have hsame := hmac hverifies
  exact hne (List.append_cancel_right hsame).symm

/-- Messages are protected, each against being accepted twice and against another counter, exactly
when the receiver opens none of them. Changed associated data is rejected whenever the keyed hash
has no collision there. -/
theorem authentic_iff (sender receiver : WgInterface) (packets : List Bytes) (key : Key)
    (nonce : Nat) (plaintext aad aad' : Bytes) :
    ((∀ m ∈ sender.messages packets, AtMostOnce receiver m ∧ CounterBound receiver m) ↔
        ∀ m ∈ sender.messages packets, ¬ Opens receiver m) ∧
      (aad' ≠ aad →
        NoCollision key (aad ++ xor plaintext (keystream key nonce plaintext.length))
          (aad' ++ xor plaintext (keystream key nonce plaintext.length)) →
        aeadDecrypt key nonce (aeadEncrypt key nonce plaintext aad) aad' = none) := by
  refine ⟨forall₂_congr fun m hm => ?_, fun hne hmac => aeadDecrypt_of_changed_aad hne hmac⟩
  obtain ⟨nonce, body, hnonce, rfl⟩ := mem_messages hm
  constructor
  · rintro ⟨-, hbound⟩
    exact (counterBound_iff (by omega)).mp hbound
  · intro hclosed
    exact ⟨atMostOnce_of_not_opens hclosed, (counterBound_iff (by omega)).mpr hclosed⟩

/-- A peer that uses one key for both directions. -/
def samplePeer : WgPeer where
  publicKey := ⟨List.replicate 32 9, rfl⟩
  allowedIps := [(⟨10, 0, 0, 0⟩, 24)]
  lastHandshake := 0
  txBytes := 0
  rxBytes := 0
  sendKey := ⟨List.replicate 32 1, rfl⟩
  recvKey := ⟨List.replicate 32 1, rfl⟩
  sendNonce := 0
  recvNonce := 0
  handshakeComplete := true

def sampleInterface : WgInterface where
  name := "wg0"
  privateKey := ⟨List.replicate 32 5, rfl⟩
  publicKey := ⟨List.replicate 32 6, rfl⟩
  peers := [samplePeer]
  up := true
  ephemeralPrivate := ⟨List.replicate 32 7, rfl⟩
  ephemeralPublic := ⟨List.replicate 32 8, rfl⟩

/-- A packet to 10.0.0.2. -/
def samplePacket : Bytes := List.replicate 16 0x45 ++ [10, 0, 0, 2]

/-- Two inputs without a collision: the empty text with other associated data is rejected. -/
theorem changed_aad_rejected :
    aeadDecrypt ⟨List.replicate 32 1, rfl⟩ 0
      (aeadEncrypt ⟨List.replicate 32 1, rfl⟩ 0 [] []) [1] = none :=
  (authentic_iff sampleInterface sampleInterface [samplePacket] ⟨List.replicate 32 1, rfl⟩ 0
    [] [] [1]).2 (by decide) fun hmac => absurd hmac (by decide +kernel)

/-! ### Messages that are opened -/

/-- The tag of a message is the one that the shared key gives: between interfaces that share a key
every message is opened. -/
theorem opens_of_shared_key {receiver : WgInterface} {p : WgPeer} (hup : receiver.up = true)
    (hp : p ∈ receiver.peers) (hcomplete : p.handshakeComplete = true) (nonce : Nat)
    (packet : Bytes) :
    Opens receiver (transport nonce (aeadEncrypt p.recvKey nonce packet [])) := by
  refine ⟨hup, p, hp, WgPeer.opens_iff.mpr ⟨hcomplete, ?_⟩⟩
  rw [drop_transport, verifies_aeadEncrypt]

/-- A message that is opened is accepted however often it is delivered, and with whatever counters,
as long as the byte count of the peer does not overflow. -/
theorem deliver_counters {receiver : WgInterface} {body : Bytes}
    (hopens : Opens receiver (transport 0 body)) {counters : List Nat}
    (hcounters : ∀ c ∈ counters, c + 1 < 2 ^ 64)
    (hroom : ∀ p ∈ receiver.peers, p.rxBytes + counters.length * (13 + body.length) < 2 ^ 64) :
    ∃ results receiver', receiver.deliver (counters.map fun c => transport c body) =
        .ok (results, receiver') ∧
      results.length = counters.length ∧ ∀ r ∈ results, r.isSome = true := by
  induction counters generalizing receiver with
  | nil => exact ⟨[], receiver, rfl, rfl, fun r hr => absurd hr List.not_mem_nil⟩
  | cons c counters ih =>
    rw [List.forall_mem_cons] at hcounters
    simp only [List.length_cons, Nat.add_mul, Nat.one_mul] at hroom
    have hopens' : Opens receiver (transport c body) := by
      rw [← withCounter_transport 0]
      exact (opens_withCounter receiver 0 body c).mpr hopens
    have hlen := length_transport c body
    obtain ⟨p, hp, -, hdec⟩ := decapsulate_of_opens hopens' (by omega) (index_transport c body)
    have hrx := hroom p hp
    rw [counter_transport body (by omega), hlen, u64_eq_ok (by omega), ok_bind,
      u64_eq_ok hcounters.1, ok_bind] at hdec
    have hsame := (opens_decapsulate hdec (transport 0 body)).mpr hopens
    obtain ⟨results, receiver', hrest, hcount, hsome⟩ := ih hsame hcounters.2
      (forall_mem_modifyFirst (fun q hq => by have := hroom q hq; omega)
        (fun q hq => by dsimp only [WgPeer.received]; omega))
    refine ⟨some (decrypted p.recvKey c ((transport c body).drop 13)) :: results, receiver', ?_,
      by rw [List.length_cons, hcount, List.length_cons],
      List.forall_mem_cons.mpr ⟨rfl, hsome⟩⟩
    rw [List.map_cons, deliver, hdec, pure_eq_ok, ok_bind]
    dsimp only
    rw [hrest]
    rfl

/-- A message is accepted twice, and a third time with its counter changed. -/
theorem replayed_and_changed_accepted :
    ∃ m ∈ sampleInterface.messages [samplePacket], ∃ results receiver',
      sampleInterface.deliver [m, m, withCounter m 7] = .ok (results, receiver') ∧
        results.length = 3 ∧ ∀ r ∈ results, r.isSome = true := by
  have hroute : sampleInterface.findPeerForIp ⟨10, 0, 0, 2⟩ = some 0 := by decide
  have hpeer : samplePeer ∈ sampleInterface.peers := List.mem_cons_self
  have hfirst : sampleInterface.peers[0]? = some samplePeer := rfl
  have hlen : 20 ≤ samplePacket.length := by decide
  obtain ⟨next, hsent⟩ := encapsulate_of_route rfl hlen rfl hroute hfirst rfl (by decide)
    (by decide)
  have hopens := opens_of_shared_key rfl hpeer rfl 0 samplePacket
  have hroom : ∀ p ∈ sampleInterface.peers, p.rxBytes +
      [0, 0, 7].length * (13 + (aeadEncrypt samplePeer.recvKey 0 samplePacket []).length) <
        2 ^ 64 := by
    intro p hp
    rw [List.mem_singleton.mp hp, length_aeadEncrypt]
    decide
  refine ⟨transport 0 (aeadEncrypt samplePeer.recvKey 0 samplePacket []), ?_, ?_⟩
  · rw [messages, hsent]
    exact List.mem_cons_self
  · rw [withCounter_transport]
    exact deliver_counters hopens (by decide) hroom

end MerlionKernel.Wireguard
