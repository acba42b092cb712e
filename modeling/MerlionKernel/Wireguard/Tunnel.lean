import MerlionKernel.Net.Address
import MerlionKernel.Rust.Find
import MerlionKernel.Wireguard.Cipher

/-!
# Tunnels

The keys, the handshake and the transport messages of `wireguard.rs`. Random bytes and the time are
arguments of what uses them. An address is one of four octets, and statistics that nothing reads
are left out.
-/

namespace MerlionKernel.Wireguard

open Rust Crypto Net

/-! ### Keys -/

/-- The multiplier of the mixing steps. -/
def multiplier : UInt64 := 6364136223846793005

/-- `n` further mixing steps, with a byte from each state. -/
def outputs (increment : UInt64) : Nat → UInt64 → Bytes
  | 0, _ => []
  | n + 1, state =>
    let state := state * multiplier + increment
    (state >>> 33).toUInt8 :: outputs increment n state

@[simp] theorem length_outputs (increment : UInt64) (n : Nat) (state : UInt64) :
    (outputs increment n state).length = n := by
  induction n generalizing state with
  | zero => rfl
  | succ n ih => rw [outputs, List.length_cons, ih]

/-- The public key of a private key. -/
def derivePublicKey (priv : Key) : Key :=
  let state := priv.1.foldl (fun state b => state * multiplier + b.toUInt64) 0x526F616452756E6E
  ⟨outputs 1442695040888963407 32 state, length_outputs ..⟩

/-- The bytes of both keys are mixed in, in turns. -/
def mix (priv pub : Key) : UInt64 :=
  (priv.1.zip pub.1).foldl
    (fun state (a, p) => (state * multiplier + a.toUInt64) * multiplier + p.toUInt64)
    0xC255190000FEED

/-- The shared secret of a private key and a public key. -/
def curve25519Dh (priv pub : Key) : Key := ⟨outputs 1 32 (mix priv pub), length_outputs ..⟩

/-- Random bytes as a private key. -/
def clamp (random : Key) : Key :=
  ⟨(random.1.modify 0 (· &&& 248)).modify 31 fun b => (b &&& 127) ||| 64, by simp [random.2]⟩

/-- Two keys from a secret, a salt and a text. -/
def hkdfDerive (ikm : Key) (salt info : Bytes) : Key × Key :=
  let prk := hmacSha256 salt ikm.1
  let t1 := hmacSha256 prk.1 (info ++ [0x01])
  let t2 := hmacSha256 prk.1 (t1.1 ++ (info ++ [0x02]))
  (t1, t2)

/-- The text that session keys are derived with. -/
def sessionInfo : Bytes :=
  [0x77, 0x67, 0x2d, 0x73, 0x65, 0x73, 0x73, 0x69, 0x6f, 0x6e, 0x2d, 0x6b, 0x65, 0x79, 0x73]

/-- The keys for sending and receiving that a side derives from its private keys and the public key
of the peer. -/
def sessionKeys (priv eph peerPublic : Key) : Key × Key :=
  let ss1 := curve25519Dh eph peerPublic
  let ss2 := curve25519Dh priv peerPublic
  hkdfDerive ss1 ss2.1 sessionInfo

/-! ### Peers and interfaces -/

/-- A peer: its routes, its counters and its session keys. -/
structure WgPeer where
  publicKey : Key
  allowedIps : List (Ipv4Addr × Nat)
  lastHandshake : Nat
  txBytes : Nat
  rxBytes : Nat
  sendKey : Key
  recvKey : Key
  sendNonce : Nat
  recvNonce : Nat
  handshakeComplete : Bool

/-- An interface with its peers. -/
structure WgInterface where
  name : String
  privateKey : Key
  publicKey : Key
  peers : List WgPeer
  up : Bool
  ephemeralPrivate : Key
  ephemeralPublic : Key

/-- The address as a number. -/
def ipNumber (ip : Ipv4Addr) : UInt32 := UInt32.ofNat (fromBe ip.octets)

/-- The first bits of an address are those of a network. -/
def ipInPrefix (ip net : Ipv4Addr) (prefixLen : Nat) : Bool :=
  if prefixLen = 0 then true
  else
    let mask : UInt32 :=
      if prefixLen ≥ 32 then 0xFFFFFFFF else ~~~((1 <<< UInt32.ofNat (32 - prefixLen)) - 1)
    ipNumber ip &&& mask = ipNumber net &&& mask

/-- An address is one of the peer's. -/
def WgPeer.matchesAllowedIp (peer : WgPeer) (ip : Ipv4Addr) : Bool :=
  peer.allowedIps.any fun (net, prefixLen) => ipInPrefix ip net prefixLen

namespace WgInterface

/-- The first peer that an address belongs to. -/
def findPeerForIp (iface : WgInterface) (dstIp : Ipv4Addr) : Option Nat :=
  iface.peers.findIdx? (·.matchesAllowedIp dstIp)

/-- The initiation message; nothing is sent, but its length is counted. -/
def initiation (iface : WgInterface) (eph peerPublic : Key) (timestamp : Nat) : Bytes :=
  let ss1 := curve25519Dh eph peerPublic
  1 :: (toLe 4 1 ++ ((derivePublicKey eph).1 ++ (aeadEncrypt ss1 0 iface.publicKey.1 [] ++
    aeadEncrypt ss1 1 (toLe 8 timestamp) iface.publicKey.1)))

/-- A handshake with a peer: new session keys, and the counters start again. -/
def initiateHandshake (iface : WgInterface) (peerIdx : Nat) (random : Key)
    (timestamp ticks : Nat) : Exec WgInterface := do
  let eph := clamp random
  let peer ← index iface.peers peerIdx
  let (sendKey, recvKey) := sessionKeys iface.privateKey eph peer.publicKey
  let msg := iface.initiation eph peer.publicKey timestamp
  let txBytes ← u64 (peer.txBytes + msg.length)
  let peer := { peer with
    sendKey, recvKey, txBytes, sendNonce := 0, recvNonce := 0, handshakeComplete := true,
    lastHandshake := ticks }
  return { iface with
    peers := iface.peers.set peerIdx peer
    ephemeralPrivate := eph
    ephemeralPublic := derivePublicKey eph }

/-- A transport message: type, receiver index, counter and ciphertext. -/
def transport (nonce : Nat) (encrypted : Bytes) : Bytes :=
  4 :: (toLe 4 0 ++ (toLe 8 nonce ++ encrypted))

/-- Encrypt a packet for the peer that its destination belongs to. -/
def encapsulate (iface : WgInterface) (packet : Bytes) :
    Exec (Except String Bytes × WgInterface) :=
  if ¬ iface.up then return (.error "interface is down", iface)
  else if packet.length < 20 then return (.error "packet too short for IP", iface)
  else do
    let dstIp ← Ipv4Addr.read packet 16
    match iface.findPeerForIp dstIp with
    | none => return (.error "no peer for destination", iface)
    | some peerIdx =>
      let peer ← index iface.peers peerIdx
      if ¬ peer.handshakeComplete then return (.error "handshake not complete", iface)
      else
        let nonce := peer.sendNonce
        let sendNonce ← u64 (nonce + 1)
        let msg := transport nonce (aeadEncrypt peer.sendKey nonce packet [])
        let txBytes ← u64 (peer.txBytes + msg.length)
        return (.ok msg, { iface with
          peers := iface.peers.set peerIdx { peer with sendNonce, txBytes } })

/-- Try the receive key of each peer. -/
def tryPeers (data ciphertext : Bytes) (nonce : Nat) :
    List WgPeer → Exec (Option Bytes × List WgPeer)
  | [] => return (none, [])
  | peer :: peers =>
    let opened :=
      if peer.handshakeComplete then aeadDecrypt peer.recvKey nonce ciphertext [] else none
    match opened with
    | some plaintext => do
      let rxBytes ← u64 (peer.rxBytes + data.length)
      let recvNonce ← u64 (nonce + 1)
      return (some plaintext, { peer with rxBytes, recvNonce } :: peers)
    | none => do
      let (result, peers) ← tryPeers data ciphertext nonce peers
      return (result, peer :: peers)

/-- The packet in a transport message, if some peer's receive key opens it. -/
def decapsulate (iface : WgInterface) (data : Bytes) : Exec (Option Bytes × WgInterface) :=
  if ¬ iface.up ∨ data.length < 13 then return (none, iface)
  else do
    let msgType ← index data 0
    if msgType ≠ 4 then return (none, iface)
    else
      let nonce := fromLe (← bytesAt data 5 8)
      let ciphertext ← slice data 13 data.length
      let (result, peers) ← tryPeers data ciphertext nonce iface.peers
      return (result, { iface with peers })

end WgInterface

end MerlionKernel.Wireguard
