import MerlionKernel.Rust.Cursor
import MerlionKernel.Wireguard.Tunnel

/-!
# Transport messages

What sending a packet and receiving a message come to. A message is opened by the first peer of the
interface whose receive key gives the tag at its end; nothing else about it is checked.
-/

namespace MerlionKernel.Wireguard

open Rust Net

/-! ### Peers that open a message -/

/-- The handshake is complete and the receive key gives the tag at the end of the bytes. -/
def WgPeer.opens (body : Bytes) (peer : WgPeer) : Bool :=
  peer.handshakeComplete && decide (Verifies peer.recvKey [] body)

theorem WgPeer.opens_iff {body : Bytes} {peer : WgPeer} :
    peer.opens body = true ↔ peer.handshakeComplete = true ∧ Verifies peer.recvKey [] body := by
  rw [opens, Bool.and_eq_true, decide_eq_true_iff]

/-- What a peer keeps of a message that it opened. -/
def WgPeer.received (rxBytes recvNonce : Nat) (peer : WgPeer) : WgPeer :=
  { peer with rxBytes, recvNonce }

/-- The part of a message before its tag, decrypted. -/
def decrypted (key : Key) (nonce : Nat) (body : Bytes) : Bytes :=
  xor (body.take (body.length - 16)) (keystream key nonce (body.length - 16))

/-- The message is opened by the receive key of some peer, on an interface that is up. -/
def Opens (iface : WgInterface) (message : Bytes) : Prop :=
  iface.up = true ∧ ∃ p ∈ iface.peers, p.opens (message.drop 13) = true

namespace WgInterface

/-! ### Making a message -/

/-- What sending a packet does: nothing, with an error, or the packet is encrypted under the send
key of the peer that it is routed to, with the next counter of that peer. -/
theorem encapsulate_cases {iface iface' : WgInterface} {packet : Bytes}
    {result : Except String Bytes} (h : iface.encapsulate packet = .ok (result, iface')) :
    (∃ e, result = .error e ∧ iface' = iface) ∨
      ∃ dstIp i p message, Ipv4Addr.read packet 16 = .ok dstIp ∧
        iface.findPeerForIp dstIp = some i ∧ iface.peers[i]? = some p ∧
        p.sendNonce + 1 < 2 ^ 64 ∧ result = .ok message ∧
        message = transport p.sendNonce (aeadEncrypt p.sendKey p.sendNonce packet []) ∧
        iface' = { iface with
          peers := iface.peers.set i { p with
            sendNonce := p.sendNonce + 1
            txBytes := p.txBytes + message.length } } := by
  unfold encapsulate at h
  by_cases hdown : ¬ iface.up
  · rw [if_pos hdown] at h
    cases h
    exact .inl ⟨_, rfl, rfl⟩
  rw [if_neg hdown] at h
  by_cases hshort : packet.length < 20
  · rw [if_pos hshort] at h
    cases h
    exact .inl ⟨_, rfl, rfl⟩
  rw [if_neg hshort, bind_eq_ok_iff] at h
  obtain ⟨dstIp, hread, h⟩ := h
  cases hroute : iface.findPeerForIp dstIp with
  | none =>
    rw [hroute] at h
    cases h
    exact .inl ⟨_, rfl, rfl⟩
  | some i =>
    rw [hroute] at h
    dsimp only at h
    rw [bind_eq_ok_iff] at h
    obtain ⟨p, hpeer, h⟩ := h
    by_cases hpending : ¬ p.handshakeComplete
    · rw [if_pos hpending] at h
      cases h
      exact .inl ⟨_, rfl, rfl⟩
    rw [if_neg hpending, bind_eq_ok_iff] at h
    obtain ⟨sendNonce, hnonce, h⟩ := h
    rw [bind_eq_ok_iff] at h
    obtain ⟨txBytes, htx, h⟩ := h
    obtain ⟨hlt, rfl⟩ := u64_eq_ok_iff.mp hnonce
    obtain ⟨-, rfl⟩ := u64_eq_ok_iff.mp htx
    cases h
    exact .inr ⟨dstIp, i, p, _, hread, hroute, index_eq_ok_iff.mp hpeer, hlt, rfl, rfl, rfl⟩

/-- A packet with a route to a peer whose handshake is complete is made into a message, as long as
the counters of the peer do not overflow. -/
theorem encapsulate_of_route {iface : WgInterface} {packet : Bytes} {dstIp : Ipv4Addr} {i : Nat}
    {p : WgPeer} (hup : iface.up = true) (hlen : 20 ≤ packet.length)
    (hread : Ipv4Addr.read packet 16 = .ok dstIp) (hroute : iface.findPeerForIp dstIp = some i)
    (hpeer : iface.peers[i]? = some p) (hcomplete : p.handshakeComplete = true)
    (hnonce : p.sendNonce + 1 < 2 ^ 64) (htx : p.txBytes + (29 + packet.length) < 2 ^ 64) :
    ∃ iface', iface.encapsulate packet =
      .ok (.ok (transport p.sendNonce (aeadEncrypt p.sendKey p.sendNonce packet [])), iface') := by
  have hsize : (transport p.sendNonce (aeadEncrypt p.sendKey p.sendNonce packet [])).length =
      29 + packet.length := by
    simp only [transport, List.length_cons, List.length_append, length_toLe, length_aeadEncrypt]
    omega
  rw [encapsulate, if_neg (not_not_intro hup), if_neg (by omega), hread, ok_bind, hroute]
  dsimp only
  rw [index_eq_ok_iff.mpr hpeer, ok_bind, if_neg (not_not_intro hcomplete), u64_eq_ok hnonce,
    ok_bind, hsize, u64_eq_ok htx]
  exact ⟨_, rfl⟩

/-! ### Opening a message -/

/-- The first peer whose key gives the tag opens the message. -/
theorem tryPeers_eq (data body : Bytes) (nonce : Nat) (peers : List WgPeer) :
    tryPeers data body nonce peers =
      match peers.find? (WgPeer.opens body) with
      | none => .ok (none, peers)
      | some p => do
        let rxBytes ← u64 (p.rxBytes + data.length)
        let recvNonce ← u64 (nonce + 1)
        return (some (decrypted p.recvKey nonce body),
          modifyFirst (WgPeer.opens body) (WgPeer.received rxBytes recvNonce) peers) := by
  induction peers with
  | nil => rfl
  | cons p peers ih =>
    rw [tryPeers]
    dsimp only
    by_cases hp : p.opens body = true
    · obtain ⟨hcomplete, hverifies⟩ := WgPeer.opens_iff.mp hp
      rw [if_pos hcomplete, aeadDecrypt_eq, if_pos hverifies, List.find?_cons_of_pos hp]
      simp only [modifyFirst, if_pos hp]
      rfl
    · have hnone : (if p.handshakeComplete then aeadDecrypt p.recvKey nonce body [] else none) =
          none := by
        split_ifs with hcomplete
        · rw [aeadDecrypt_eq,
            if_neg fun hverifies => hp (WgPeer.opens_iff.mpr ⟨hcomplete, hverifies⟩)]
        · rfl
      rw [hnone, ih, List.find?_cons_of_neg hp]
      cases hfind : peers.find? (WgPeer.opens body) with
      | none => rfl
      | some q =>
        simp only [modifyFirst, if_neg hp]
        cases u64 (q.rxBytes + data.length) with
        | error e => rfl
        | ok rx =>
          cases u64 (nonce + 1) with
          | error e => rfl
          | ok rn => rfl

/-- The counter in a message. -/
def counter (message : Bytes) : Nat := fromLe (window message 5 8)

/-- A message of the right type and size is given to the peers. -/
theorem decapsulate_eq_tryPeers {iface : WgInterface} {message : Bytes} (hup : iface.up = true)
    (hlen : 13 ≤ message.length) (htype : index message 0 = .ok 4) :
    iface.decapsulate message = do
      let (result, peers) ← tryPeers message (message.drop 13) (counter message) iface.peers
      return (result, { iface with peers }) := by
  rw [decapsulate, if_neg (by simp [hup]; omega), htype, ok_bind, if_neg (by simp),
    bytesAt_eq_ok (by omega), slice_to_end hlen]
  rfl

/-- A message is given to a peer that opens it, or changes nothing. -/
theorem decapsulate_cases (iface : WgInterface) (message : Bytes) :
    iface.decapsulate message = .ok (none, iface) ∨
      Opens iface message ∧ 13 ≤ message.length ∧ index message 0 = .ok 4 := by
  by_cases hshort : ¬ iface.up ∨ message.length < 13
  · exact .inl (by rw [decapsulate, if_pos hshort]; rfl)
  push Not at hshort
  obtain ⟨hup, hlen⟩ := hshort
  have hpos : 0 < message.length := by omega
  by_cases htype : message[0] = 4
  · have hindex : index message 0 = .ok 4 := by rw [index_eq_ok hpos, htype]
    rw [decapsulate_eq_tryPeers hup hlen hindex, tryPeers_eq]
    cases hfind : iface.peers.find? (WgPeer.opens (message.drop 13)) with
    | none => exact .inl rfl
    | some p =>
      exact .inr ⟨⟨hup, p, List.mem_of_find?_eq_some hfind, List.find?_some hfind⟩, hlen, hindex⟩
  · left
    rw [decapsulate, if_neg (by simp [hup]; omega), index_eq_ok hpos, ok_bind, if_pos htype]
    rfl

/-- What no peer opens is rejected. -/
theorem decapsulate_of_not_opens {iface : WgInterface} {message : Bytes}
    (h : ¬ Opens iface message) : iface.decapsulate message = .ok (none, iface) :=
  (decapsulate_cases iface message).resolve_right fun hopens => h hopens.1

/-- What some peer opens is accepted, unless a counter of the peer overflows. -/
theorem decapsulate_of_opens {iface : WgInterface} {message : Bytes} (h : Opens iface message)
    (hlen : 13 ≤ message.length) (htype : index message 0 = .ok 4) :
    ∃ p ∈ iface.peers, iface.peers.find? (WgPeer.opens (message.drop 13)) = some p ∧
      iface.decapsulate message = do
        let rxBytes ← u64 (p.rxBytes + message.length)
        let recvNonce ← u64 (counter message + 1)
        return (some (decrypted p.recvKey (counter message) (message.drop 13)),
          { iface with
            peers := modifyFirst (WgPeer.opens (message.drop 13))
              (WgPeer.received rxBytes recvNonce) iface.peers }) := by
  obtain ⟨hup, q, hq, hopens⟩ := h
  have hsome : (iface.peers.find? (WgPeer.opens (message.drop 13))).isSome :=
    List.find?_isSome.mpr ⟨q, hq, hopens⟩
  obtain ⟨p, hp⟩ := Option.isSome_iff_exists.mp hsome
  refine ⟨p, List.mem_of_find?_eq_some hp, hp, ?_⟩
  rw [decapsulate_eq_tryPeers hup hlen htype, tryPeers_eq, hp]
  dsimp only
  cases u64 (p.rxBytes + message.length) with
  | error e => rfl
  | ok rx =>
    cases u64 (counter message + 1) with
    | error e => rfl
    | ok rn => rfl

theorem decapsulate_ne_none_of_opens {iface iface' : WgInterface} {message : Bytes}
    (h : Opens iface message) (hlen : 13 ≤ message.length) (htype : index message 0 = .ok 4) :
    iface.decapsulate message ≠ .ok (none, iface') := by
  obtain ⟨p, -, -, heq⟩ := decapsulate_of_opens h hlen htype
  rw [heq]
  intro hnone
  rw [bind_eq_ok_iff] at hnone
  obtain ⟨rx, -, hnone⟩ := hnone
  rw [bind_eq_ok_iff] at hnone
  obtain ⟨rn, -, hnone⟩ := hnone
  cases hnone

/-- A message changes nothing of an interface but the counters of a peer. -/
theorem decapsulate_keeps {iface iface' : WgInterface} {data : Bytes} {result : Option Bytes}
    (h : iface.decapsulate data = .ok (result, iface')) :
    iface'.up = iface.up ∧ ∀ {β : Type} (f : WgPeer → β),
      (∀ rxBytes recvNonce p, f (WgPeer.received rxBytes recvNonce p) = f p) →
        iface'.peers.map f = iface.peers.map f := by
  rcases decapsulate_cases iface data with hsame | ⟨hopens, hlen, htype⟩
  · rw [hsame] at h
    cases h
    exact ⟨rfl, fun _ _ => rfl⟩
  · obtain ⟨p, -, -, heq⟩ := decapsulate_of_opens hopens hlen htype
    rw [heq, bind_eq_ok_iff] at h
    obtain ⟨rx, -, h⟩ := h
    rw [bind_eq_ok_iff] at h
    obtain ⟨rn, -, h⟩ := h
    cases h
    exact ⟨rfl, fun f hf => map_modifyFirst (hf rx rn) iface.peers⟩

section Transport

variable (nonce : Nat) (body : Bytes)

theorem length_transport : (transport nonce body).length = 13 + body.length := by
  simp [transport]
  omega

theorem index_transport : index (transport nonce body) 0 = .ok 4 := rfl

theorem drop_transport : (transport nonce body).drop 13 = body := by
  have hdrop : ((4 :: (toLe 4 0 ++ toLe 8 nonce)) ++ body).drop 13 = body :=
    List.drop_left' (by simp)
  simpa [transport] using hdrop

theorem counter_transport {nonce : Nat} (h : nonce < 2 ^ 64) :
    counter (transport nonce body) = nonce := by
  have hwindow : window (transport nonce body) 5 8 = toLe 8 nonce := by
    show (toLe 8 nonce ++ body).take 8 = toLe 8 nonce
    exact List.take_left' (length_toLe 8 nonce)
  rw [counter, hwindow, fromLe_toLe_of_lt (by omega)]

end Transport

end WgInterface

end MerlionKernel.Wireguard
