import Mathlib.Logic.Relation
import Mathlib.Tactic.LinearCombination
import MerlionKernel.Theory.Congruential
import MerlionKernel.Wireguard.Transport

/-!
# Agreement of the two sides

The shared secret of a private and a public key comes from a number into which the bytes of both
keys are mixed; each of its bytes is seen from a further state of a congruential generator. Seven
bytes determine the number modulo 2^41, so two pairs of keys have the same secret exactly when their
numbers agree modulo 2^41. Nothing makes them agree when the keys change roles.

Each side of a tunnel derives its session keys from its own ephemeral key, and in the same order. A
packet arrives when the first peer of the receiver whose receive key gives its tag also has the
sender's key stream.
-/

namespace MerlionKernel.Wireguard

open Rust Net Theory

/-! ### The bytes of a state -/

/-- One mixing step. -/
def mixStep (increment state : UInt64) : UInt64 := state * multiplier + increment

theorem toNat_mixStep (increment state : UInt64) :
    (mixStep increment state).toNat ≡ 6364136223846793005 * state.toNat + increment.toNat
      [MOD 2 ^ 41] := by
  have hstep : (mixStep increment state).toNat =
      (state.toNat * 6364136223846793005 % 2 ^ 64 + increment.toNat) % 2 ^ 64 := by
    rw [mixStep, UInt64.toNat_add, UInt64.toNat_mul]
    rfl
  rw [hstep, Nat.mul_comm, Nat.ModEq]
  omega

/-- The byte that is seen of a state. -/
theorem toNat_seen (state : UInt64) :
    (state >>> 33).toUInt8.toNat = state.toNat % 2 ^ 41 / 2 ^ 33 := by
  have hshift : (33 : UInt64).toNat % 64 = 33 := rfl
  rw [UInt64.toNat_toUInt8, UInt64.toNat_shiftRight, hshift, Nat.shiftRight_eq_div_pow]
  omega

theorem getElem?_outputs (increment : UInt64) {n j : Nat} (hj : j < n) (state : UInt64) :
    (outputs increment n state)[j]? = some ((mixStep increment)^[j + 1] state >>> 33).toUInt8 := by
  induction n generalizing j state with
  | zero => exact absurd hj (Nat.not_lt_zero j)
  | succ n ih =>
    rw [outputs, Function.iterate_succ_apply]
    cases j with
    | zero => rw [List.getElem?_cons_zero, Function.iterate_zero_apply, mixStep]
    | succ j => rw [List.getElem?_cons_succ, ih (Nat.lt_of_succ_lt_succ hj), mixStep]

/-- The differences of seven successive states, when the bytes agree: the relations below have
the multiplier as a root modulo 2^41, and their coefficients add up to less than 2^8. -/
theorem difference_eq_zero {x y : ℕ → ℕ} {b : ℕ}
    (hx : ∀ j, x (j + 1) ≡ 6364136223846793005 * x j + b [MOD 2 ^ 41])
    (hy : ∀ j, y (j + 1) ≡ 6364136223846793005 * y j + b [MOD 2 ^ 41])
    (hsame : ∀ j < 7, x j % 2 ^ 41 / 2 ^ 33 = y j % 2 ^ 41 / 2 ^ 33) :
    difference (2 ^ 41) x y 0 = 0 := by
  have hrelation : ∀ cs : List ℤ, cs.length = 7 →
      ((2 ^ 41 : ℕ) : ℤ) ∣ polyEval (6364136223846793005 : ℕ) cs →
      (cs.map abs).sum * (((2 ^ 33 : ℕ) : ℤ) - 1) < (2 ^ 41 : ℕ) →
      combine (difference (2 ^ 41) x y) cs = 0 := by
    intro cs hlen hroot hshort
    exact combine_difference_eq_zero (by norm_num) hx hy (hlen ▸ hsame) hroot hshort
  have h1 := hrelation [-3, -19, -22, -25, 0, -35, 4] rfl (by decide +kernel)
    (by decide +kernel)
  have h2 := hrelation [12, 49, -11, 7, 4, -5, -12] rfl (by decide +kernel)
    (by decide +kernel)
  have h3 := hrelation [13, -4, -15, 13, 8, 34, -45] rfl (by decide +kernel)
    (by decide +kernel)
  have h4 := hrelation [-1, 20, 47, -18, -7, 0, -33] rfl (by decide +kernel)
    (by decide +kernel)
  have h5 := hrelation [-29, 9, 6, 28, 43, 8, -37] rfl (by decide +kernel)
    (by decide +kernel)
  have h6 := hrelation [-47, 18, -22, 11, -27, 14, 1] rfl (by decide +kernel)
    (by decide +kernel)
  have h7 := hrelation [-2, -41, 4, 44, -17, -46, -2] rfl (by decide +kernel)
    (by decide +kernel)
  simp only [combine] at h1 h2 h3 h4 h5 h6 h7
  -- the relations are independent, with determinant 2^41
  have hmul : 2 ^ 41 * difference (2 ^ 41) x y 0 = 0 := by
    linear_combination -9206955114 * h1 + 16820424232 * h2 + 14327214245 * h3 - 5786545371 * h4
      - 19655829735 * h5 - 25881709411 * h6 + 4471217881 * h7
  exact (mul_eq_zero.mp hmul).resolve_left (by norm_num)

/-- The bytes of two states agree exactly when the states agree modulo 2^41. -/
theorem outputs_eq_iff (increment state state' : UInt64) :
    outputs increment 32 state = outputs increment 32 state' ↔
      state.toNat ≡ state'.toNat [MOD 2 ^ 41] := by
  constructor
  · intro heq
    have hstep : ∀ (s : UInt64) (j : ℕ), ((mixStep increment)^[j + 1 + 1] s).toNat ≡
        6364136223846793005 * ((mixStep increment)^[j + 1] s).toNat + increment.toNat
          [MOD 2 ^ 41] := by
      intro s j
      rw [Function.iterate_succ_apply']
      exact toNat_mixStep increment _
    have hsame : ∀ j < 7, ((mixStep increment)^[j + 1] state).toNat % 2 ^ 41 / 2 ^ 33 =
        ((mixStep increment)^[j + 1] state').toNat % 2 ^ 41 / 2 ^ 33 := by
      intro j hj
      have hbyte := congrArg (·[j]?) heq
      rw [getElem?_outputs increment (by omega), getElem?_outputs increment (by omega)] at hbyte
      rw [← toNat_seen, ← toNat_seen, Option.some.inj hbyte]
    have hzero := difference_eq_zero (hstep state) (hstep state') hsame
    -- the first states agree, and the multiplier is odd
    have hfirst : (mixStep increment state).toNat ≡ (mixStep increment state').toNat
        [MOD 2 ^ 41] := by
      rw [difference, sub_eq_zero] at hzero
      exact Int.ofNat.inj hzero
    have hmul := (toNat_mixStep increment state).symm.trans
      (hfirst.trans (toNat_mixStep increment state'))
    exact Nat.ModEq.cancel_left_of_coprime (by decide +kernel)
      (Nat.ModEq.add_right_cancel' _ hmul)
  · generalize 32 = n
    intro heq
    induction n generalizing state state' with
    | zero => rfl
    | succ n ih =>
      have hnext : (mixStep increment state).toNat ≡ (mixStep increment state').toNat
          [MOD 2 ^ 41] :=
        (toNat_mixStep increment state).trans
          (((heq.mul_left _).add_right _).trans (toNat_mixStep increment state').symm)
      have hbyte : (mixStep increment state >>> 33).toUInt8 =
          (mixStep increment state' >>> 33).toUInt8 := by
        apply UInt8.toNat_inj.mp
        rw [toNat_seen, toNat_seen, hnext]
      rw [outputs, outputs]
      exact congrArg₂ List.cons hbyte (ih _ _ hnext)

/-! ### The shared secret -/

/-- The number of some pairs of bytes: the digits of a private and a public key in turns, in the
base of the multiplier. -/
def keySum : List (UInt8 × UInt8) → ℕ
  | [] => 0
  | (a, p) :: rest =>
    (a.toNat * 6364136223846793005 + p.toNat) * 6364136223846793005 ^ (2 * rest.length) +
      keySum rest

theorem toNat_mixPair (state : UInt64) (a p : UInt8) :
    ((state * multiplier + a.toUInt64) * multiplier + p.toUInt64).toNat ≡
      6364136223846793005 * (6364136223846793005 * state.toNat + a.toNat) + p.toNat
        [MOD 2 ^ 41] := by
  have hfirst := toNat_mixStep a.toUInt64 state
  have hsecond := toNat_mixStep p.toUInt64 (mixStep a.toUInt64 state)
  rw [UInt8.toNat_toUInt64] at hfirst hsecond
  exact hsecond.trans ((hfirst.mul_left _).add_right _)

theorem foldl_mix (pairs : List (UInt8 × UInt8)) (state : UInt64) :
    (pairs.foldl
      (fun state (a, p) => (state * multiplier + a.toUInt64) * multiplier + p.toUInt64)
      state).toNat ≡
    state.toNat * 6364136223846793005 ^ (2 * pairs.length) + keySum pairs [MOD 2 ^ 41] := by
  induction pairs generalizing state with
  | nil =>
    rw [List.foldl_nil, keySum, List.length_nil, Nat.mul_zero, pow_zero, Nat.mul_one, Nat.add_zero]
  | cons pair rest ih =>
    obtain ⟨a, p⟩ := pair
    rw [List.foldl_cons, keySum, List.length_cons]
    have hfirst := ((toNat_mixPair state a p).mul_right
      (6364136223846793005 ^ (2 * rest.length))).add_right (keySum rest)
    have hregroup : (6364136223846793005 * (6364136223846793005 * state.toNat + a.toNat) +
          p.toNat) * 6364136223846793005 ^ (2 * rest.length) + keySum rest =
        state.toNat * 6364136223846793005 ^ (2 * (rest.length + 1)) +
          ((a.toNat * 6364136223846793005 + p.toNat) * 6364136223846793005 ^ (2 * rest.length) +
            keySum rest) := by
      rw [show 2 * (rest.length + 1) = 2 * rest.length + 2 by ring, pow_add]
      ring
    rw [← hregroup]
    exact (ih _).trans hfirst

/-- Two pairs of keys have the same secret exactly when their numbers agree modulo 2^41. -/
theorem curve25519Dh_eq_iff (priv pub priv' pub' : Key) :
    curve25519Dh priv pub = curve25519Dh priv' pub' ↔
      keySum (priv.1.zip pub.1) ≡ keySum (priv'.1.zip pub'.1) [MOD 2 ^ 41] := by
  have hlen : ∀ priv pub : Key, (priv.1.zip pub.1).length = 32 := by
    intro priv pub
    rw [List.length_zip, priv.2, pub.2, min_self]
  have hmix := foldl_mix (priv.1.zip pub.1) 0xC255190000FEED
  have hmix' := foldl_mix (priv'.1.zip pub'.1) 0xC255190000FEED
  rw [hlen] at hmix hmix'
  rw [curve25519Dh, curve25519Dh, Subtype.mk.injEq, outputs_eq_iff]
  constructor
  · intro heq
    exact Nat.ModEq.add_left_cancel' _ (hmix.symm.trans (heq.trans hmix'))
  · intro heq
    exact hmix.trans ((heq.add_left _).trans hmix'.symm)

/-! ### Handshakes and traffic -/

namespace WgInterface

/-- The keys that a handshake gives the peer. -/
theorem initiateHandshake_eq_ok {iface iface' : WgInterface} {i timestamp ticks : ℕ} {random : Key}
    (h : iface.initiateHandshake i random timestamp ticks = .ok iface') :
    ∃ p p', iface.peers[i]? = some p ∧ iface'.peers[i]? = some p' ∧
      (p'.sendKey, p'.recvKey) = sessionKeys iface.privateKey (clamp random) p.publicKey := by
  rw [initiateHandshake, bind_eq_ok_iff] at h
  obtain ⟨p, hp, h⟩ := h
  dsimp only at h
  rw [bind_eq_ok_iff] at h
  obtain ⟨tx, -, h⟩ := h
  cases h
  have hpeer := index_eq_ok_iff.mp hp
  obtain ⟨hlt, -⟩ := List.getElem?_eq_some_iff.mp hpeer
  exact ⟨p, _, hpeer, List.getElem?_set_self hlt, rfl⟩

/-- A handshake with a peer succeeds unless the byte count of the peer overflows. -/
theorem initiateHandshake_of_peer {iface : WgInterface} {i : ℕ} {p : WgPeer}
    (hp : iface.peers[i]? = some p) (htx : p.txBytes + 109 < 2 ^ 64) (random : Key)
    (timestamp ticks : ℕ) :
    ∃ iface' p', iface.initiateHandshake i random timestamp ticks = .ok iface' ∧
      iface'.up = iface.up ∧ iface'.peers = iface.peers.set i p' ∧
      p'.allowedIps = p.allowedIps ∧ p'.handshakeComplete = true ∧ p'.sendNonce = 0 ∧
      p'.txBytes = p.txBytes + 109 := by
  have hlen : (iface.initiation (clamp random) p.publicKey timestamp).length = 109 := by
    simp [initiation, length_aeadEncrypt, (derivePublicKey (clamp random)).2, iface.publicKey.2]
  rw [initiateHandshake, index_eq_ok_iff.mpr hp, ok_bind]
  dsimp only
  rw [hlen, u64_eq_ok htx]
  exact ⟨_, _, rfl, rfl, rfl, rfl, rfl, rfl, rfl⟩

/-- A packet is sent or a message received. -/
def Transfers (iface iface' : WgInterface) : Prop :=
  (∃ packet result, iface.encapsulate packet = .ok (result, iface')) ∨
    ∃ data result, iface.decapsulate data = .ok (result, iface')

/-- Any traffic leads from one state to the other. -/
def Traffic : WgInterface → WgInterface → Prop := Relation.ReflTransGen Transfers

/-- A transfer leaves the keys as they are. -/
theorem Transfers.sendKeys {iface iface' : WgInterface} (h : iface.Transfers iface') :
    iface'.peers.map WgPeer.sendKey = iface.peers.map WgPeer.sendKey := by
  rcases h with ⟨packet, result, hsent⟩ | ⟨data, result, hreceived⟩
  · obtain ⟨_, -, rfl⟩ | ⟨_, i, p, _, -, -, hpeer, -, -, -, rfl⟩ := encapsulate_cases hsent
    · rfl
    · exact map_set_of_same hpeer rfl
  · exact (decapsulate_keeps hreceived).2 WgPeer.sendKey fun _ _ _ => rfl

theorem Traffic.sendKeys {iface iface' : WgInterface} (h : iface.Traffic iface') :
    iface'.peers.map WgPeer.sendKey = iface.peers.map WgPeer.sendKey := by
  induction h with
  | refl => rfl
  | tail _ hlast ih => exact hlast.sendKeys.trans ih

end WgInterface

open WgInterface

/-- Two interfaces that each did a handshake with the other, after any traffic. -/
structure Session where
  /-- The two sides before their handshakes. -/
  alice : WgInterface
  bob : WgInterface
  /-- The places of the peers. -/
  toBob : ℕ
  toAlice : ℕ
  randomAlice : Key
  randomBob : Key
  timestampAlice : ℕ
  timestampBob : ℕ
  ticksAlice : ℕ
  ticksBob : ℕ
  /-- The two sides after their handshakes. -/
  aliceReady : WgInterface
  bobReady : WgInterface
  /-- The two sides now. -/
  aliceNow : WgInterface
  bobNow : WgInterface
  knows_bob : ∃ p, alice.peers[toBob]? = some p ∧ p.publicKey = derivePublicKey bob.privateKey
  knows_alice : ∃ p, bob.peers[toAlice]? = some p ∧ p.publicKey = derivePublicKey alice.privateKey
  alice_handshake :
    alice.initiateHandshake toBob randomAlice timestampAlice ticksAlice = .ok aliceReady
  bob_handshake : bob.initiateHandshake toAlice randomBob timestampBob ticksBob = .ok bobReady
  alice_traffic : aliceReady.Traffic aliceNow
  bob_traffic : bobReady.Traffic bobNow

namespace Session

/-- A packet that one side sends to the other now. -/
structure Sent (s : Session) where
  packet : Bytes
  message : Bytes
  dstIp : Ipv4Addr
  aliceNext : WgInterface
  read : Ipv4Addr.read packet 16 = .ok dstIp
  routed : s.aliceNow.findPeerForIp dstIp = some s.toBob
  sent : s.aliceNow.encapsulate packet = .ok (.ok message, aliceNext)

/-- The key that the first side sends with. -/
def sendKey (s : Session) : Key :=
  (sessionKeys s.alice.privateKey (clamp s.randomAlice) (derivePublicKey s.bob.privateKey)).1

/-- Through all traffic, the key of the handshake stays. -/
theorem sendKey_now (s : Session) {p : WgPeer} (hp : s.aliceNow.peers[s.toBob]? = some p) :
    p.sendKey = s.sendKey := by
  obtain ⟨q, q', hq, hq', hkeys⟩ := initiateHandshake_eq_ok s.alice_handshake
  obtain ⟨b, hb, hpublic⟩ := s.knows_bob
  obtain rfl : q = b := Option.some.inj (hq.symm.trans hb)
  have hmap := congrArg (·[s.toBob]?) s.alice_traffic.sendKeys
  rw [List.getElem?_map, List.getElem?_map, hp, hq'] at hmap
  rw [Option.some.inj hmap, sendKey, ← hpublic, ← hkeys]

end Session

/-! ### Delivery -/

/-- Of the peers with a complete handshake, the first whose receive key gives the tag of the packet
also gives its key stream, and its byte count has room. -/
def Readable (receiver : WgInterface) (key : Key) (nonce : ℕ) (packet : Bytes) : Prop :=
  receiver.up = true ∧
    ∃ q, receiver.peers.find? (WgPeer.opens (aeadEncrypt key nonce packet [])) = some q ∧
      keystream q.recvKey nonce packet.length = keystream key nonce packet.length ∧
      q.rxBytes + (29 + packet.length) < 2 ^ 64

/-- Another key decrypts a packet exactly when it has the key stream. -/
theorem decrypted_aeadEncrypt_iff (key key' : Key) (nonce : ℕ) (packet : Bytes) :
    decrypted key' nonce (aeadEncrypt key nonce packet []) = packet ↔
      keystream key' nonce packet.length = keystream key nonce packet.length := by
  rw [decrypted, (aeadEncrypt_parts key nonce packet []).1, length_aeadEncrypt,
    Nat.add_sub_cancel]
  exact xor_xor_eq_iff (length_keystream _ _ _) (length_keystream _ _ _)

/-- A packet that was encrypted with a key is read back exactly when it is readable. -/
theorem decapsulate_transport_iff (receiver : WgInterface) (key : Key) {nonce : ℕ}
    (hnonce : nonce + 1 < 2 ^ 64) (packet : Bytes) :
    (∃ receiver', receiver.decapsulate (transport nonce (aeadEncrypt key nonce packet [])) =
      .ok (some packet, receiver')) ↔ Readable receiver key nonce packet := by
  have hlen : (transport nonce (aeadEncrypt key nonce packet [])).length = 29 + packet.length := by
    rw [length_transport, length_aeadEncrypt]
    omega
  by_cases hopens : Opens receiver (transport nonce (aeadEncrypt key nonce packet []))
  · obtain ⟨p, -, hfind, hdec⟩ := decapsulate_of_opens hopens (by omega) (index_transport _ _)
    rw [drop_transport] at hfind hdec
    rw [counter_transport _ (by omega), hlen, u64_eq_ok hnonce] at hdec
    rw [hdec]
    constructor
    · rintro ⟨receiver', h⟩
      rw [bind_eq_ok_iff] at h
      obtain ⟨rx, hrx, h⟩ := h
      have hplain := (Prod.mk.inj (Except.ok.inj h)).1
      exact ⟨hopens.1, p, hfind, (decrypted_aeadEncrypt_iff key p.recvKey nonce packet).mp
        (Option.some.inj hplain), (u64_eq_ok_iff.mp hrx).1⟩
    · rintro ⟨-, q, hq, hstream, hroom⟩
      obtain rfl : p = q := Option.some.inj (hfind.symm.trans hq)
      rw [u64_eq_ok hroom, ok_bind, ok_bind,
        (decrypted_aeadEncrypt_iff key p.recvKey nonce packet).mpr hstream]
      exact ⟨_, rfl⟩
  · rw [decapsulate_of_not_opens hopens]
    constructor
    · rintro ⟨receiver', h⟩
      cases h
    · rintro ⟨hup, q, hq, -, -⟩
      refine absurd ⟨hup, q, List.mem_of_find?_eq_some hq, ?_⟩ hopens
      rw [drop_transport]
      exact List.find?_some hq

/-- The shared secrets of two key pairs agree exactly when the numbers of the keys agree modulo
2^41. A packet that one side of a session sends to the other arrives exactly when the other side
can read what is encrypted with the key of the first. -/
theorem tunnel_iff (a b : Key) (s : Session) (x : s.Sent) :
    (curve25519Dh a (derivePublicKey b) = curve25519Dh b (derivePublicKey a) ↔
        keySum (a.1.zip (derivePublicKey b).1) ≡ keySum (b.1.zip (derivePublicKey a).1)
          [MOD 2 ^ 41]) ∧
      ((∃ bob', s.bobNow.decapsulate x.message = .ok (some x.packet, bob')) ↔
        Readable s.bobNow s.sendKey (counter x.message) x.packet) := by
  refine ⟨curve25519Dh_eq_iff _ _ _ _, ?_⟩
  obtain ⟨_, herror, -⟩ | ⟨dst, i, p, message, hread, hroute, hpeer, hnonce, hok, hmade, -⟩ :=
    encapsulate_cases x.sent
  · cases herror
  · cases hok
    obtain rfl : dst = x.dstIp := Except.ok.inj (hread.symm.trans x.read)
    obtain rfl : i = s.toBob := Option.some.inj (hroute.symm.trans x.routed)
    rw [hmade, counter_transport _ (by omega), s.sendKey_now hpeer]
    exact decapsulate_transport_iff s.bobNow s.sendKey hnonce x.packet

/-- A peer before its handshake, with the network 10.0.0.0/24. -/
def sampleRoute (other : Key) : WgPeer where
  publicKey := derivePublicKey other
  allowedIps := [(⟨10, 0, 0, 0⟩, 24)]
  lastHandshake := 0
  txBytes := 0
  rxBytes := 0
  sendKey := ⟨List.replicate 32 0, rfl⟩
  recvKey := ⟨List.replicate 32 0, rfl⟩
  sendNonce := 0
  recvNonce := 0
  handshakeComplete := false

/-- An interface with that peer. -/
def sampleSide (own other : Key) : WgInterface where
  name := "wg0"
  privateKey := own
  publicKey := derivePublicKey own
  peers := [sampleRoute other]
  up := true
  ephemeralPrivate := ⟨List.replicate 32 0, rfl⟩
  ephemeralPublic := ⟨List.replicate 32 0, rfl⟩

/-- There is a session, and a packet that is sent in it. -/
theorem tunnel_iff_sample : ∃ (s : Session) (x : s.Sent),
    (∃ bob', s.bobNow.decapsulate x.message = .ok (some x.packet, bob')) ↔
      Readable s.bobNow s.sendKey (counter x.message) x.packet := by
  let a : Key := ⟨List.replicate 32 0, rfl⟩
  let b : Key := ⟨List.replicate 32 1, rfl⟩
  let packet : Bytes := List.replicate 16 0x45 ++ [10, 0, 0, 2]
  have hroutes : ∀ own other, (sampleSide own other).peers[0]? = some (sampleRoute other) :=
    fun _ _ => rfl
  obtain ⟨alice, p, halice, hup, hpeers, hips, hcomplete, hnonce, htx⟩ :=
    initiateHandshake_of_peer (hroutes a b) (by decide) a 0 0
  obtain ⟨bob, -, hbob, -⟩ := initiateHandshake_of_peer (hroutes b a) (by decide) b 0 0
  have hroute : alice.findPeerForIp ⟨10, 0, 0, 2⟩ = some 0 := by
    rw [findPeerForIp, hpeers]
    show List.findIdx? _ [p] = some 0
    rw [List.findIdx?_singleton, WgPeer.matchesAllowedIp, hips]
    decide
  have hpeer : alice.peers[0]? = some p := by
    rw [hpeers]
    rfl
  have hlen : 20 ≤ packet.length := by decide
  obtain ⟨next, hsent⟩ := encapsulate_of_route hup hlen rfl hroute hpeer hcomplete
    (by rw [hnonce]; decide) (by rw [htx]; decide)
  exact ⟨⟨sampleSide a b, sampleSide b a, 0, 0, a, b, 0, 0, 0, 0, alice, bob, alice, bob,
      ⟨_, rfl, rfl⟩, ⟨_, rfl, rfl⟩, halice, hbob, .refl, .refl⟩,
    ⟨packet, _, _, next, rfl, hroute, hsent⟩, (tunnel_iff a b _ _).2⟩

/-- The secrets of the private keys 0 and 1 differ. -/
theorem curve25519Dh_ne :
    curve25519Dh ⟨List.replicate 32 0, rfl⟩ (derivePublicKey ⟨List.replicate 32 1, rfl⟩) ≠
      curve25519Dh ⟨List.replicate 32 1, rfl⟩ (derivePublicKey ⟨List.replicate 32 0, rfl⟩) := by
  decide +kernel

end MerlionKernel.Wireguard
