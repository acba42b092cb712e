import MerlionKernel.Dns.Message

/-!
# The DNS client

The client of `dns_client.rs`. To resolve a host name that it does not know itself it sends a
query and polls the network card. It takes the first datagram from port 53 in which it finds
an address for the answer, whoever has sent the datagram and for whatever question.
`resolve_with_cache` keeps what it has been told for 3000 ticks.

What the card delivers is a list, with one element for each poll: a frame, or nothing. A
poll behind the end of the list finds nothing. The MAC addresses of a frame, which no
function below reads, are left out, and so are the log and the statistics.
-/

namespace MerlionKernel.Dns

open Rust Net

/-! ### Constants -/

def dnsPort : Nat := 53
def dnsSrcPort : Nat := 10053
def qemuDns : Ipv4Addr := ⟨10, 0, 2, 3⟩
def maxPollIters : Nat := 200000
def cacheTtlTicks : Nat := 3000
def ethHeaderLen : Nat := 14
def ethTypeIp : Nat := 0x0800

/-! ### Names that are known -/

/-- The addresses in `net::NET`, and what `send_udp` answers for a destination, its ports and
a payload. -/
structure Network where
  ip : Ipv4Addr
  gateway : Ipv4Addr
  sendUdp : Ipv4Addr → Nat → Nat → Bytes → Bool

/-- `dns_server_ip`, both branches of which give the same address. -/
def dnsServerIp (net : Network) : Ipv4Addr :=
  if net.gateway = .zero then qemuDns else qemuDns

/-- `resolve_well_known`. -/
def resolveWellKnown (net : Network) (hostname : String) : Option Ipv4Addr :=
  if hostname = "localhost" ∨ hostname = "loopback" then some ⟨127, 0, 0, 1⟩
  else if hostname = "gateway" then some net.gateway
  else if hostname = "dns" then some (dnsServerIp net)
  else if hostname = "self" ∨ hostname = "me" then some net.ip
  else none

/-- `try_parse_ip`. -/
def tryParseIp (hostname : String) : Option Ipv4Addr :=
  match split hostname '.' with
  | [a, b, c, d] => do
    let a ← parseU8 a
    let b ← parseU8 b
    let c ← parseU8 c
    let d ← parseU8 d
    return ⟨.ofNat a, .ofNat b, .ofNat c, .ofNat d⟩
  | _ => none

/-! ### Polling -/

/-- `ReceivedFrame`. -/
structure ReceivedFrame where
  ethertype : Nat
  payload : Bytes

/-- `poll_rx`, for what the card delivers. -/
def pollRx : Option Bytes → Exec (Option ReceivedFrame)
  | none => return none
  | some raw =>
    if raw.length < ethHeaderLen then return none
    else do
      let ethertype ← getU16 raw 12
      let payload ← slice raw ethHeaderLen raw.length
      return some ⟨ethertype, payload⟩

/-- The address that the loop of `resolve` finds in a frame. -/
def frameAnswer (frame : ReceivedFrame) : Exec (Option Ipv4Addr) :=
  if frame.ethertype ≠ ethTypeIp then return none
  else if frame.payload.length < 20 then return none
  else do
    let protocol ← index frame.payload 9
    if protocol ≠ 17 then return none
    else do
      let first ← index frame.payload 0
      let ihl := (first.toNat &&& 0x0F) * 4
      if frame.payload.length < ihl + 8 then return none
      else do
        let udpData ← slice frame.payload ihl frame.payload.length
        let srcPort ← getU16 udpData 0
        -- The port is all that the datagram is asked for.
        if srcPort ≠ dnsPort then return none
        else do
          let dnsResponse ← slice udpData 8 udpData.length
          parseDnsResponse dnsResponse

/-- One round of the loop of `resolve`. -/
def pollRound (delivered : Option Bytes) : Exec (Option Ipv4Addr) := do
  match ← pollRx delivered with
  | none => return none
  | some frame => frameAnswer frame

/-- The loop of `resolve`, for so many rounds, with what is left of the deliveries. -/
def pollAnswer : Nat → List (Option Bytes) →
    Exec (Except String Ipv4Addr × List (Option Bytes))
  | 0, deliveries => return (.error "dns: no response or no A record", deliveries)
  | rounds + 1, [] => pollAnswer rounds []
  | rounds + 1, delivered :: deliveries => do
    match ← pollRound delivered with
    | some ip => return (.ok ip, deliveries)
    | none => pollAnswer rounds deliveries

/-- `resolve`. -/
def resolve (net : Network) (deliveries : List (Option Bytes)) (hostname : String) :
    Exec (Except String Ipv4Addr × List (Option Bytes)) :=
  match resolveWellKnown net hostname with
  | some ip => return (.ok ip, deliveries)
  | none =>
    match tryParseIp hostname with
    | some ip => return (.ok ip, deliveries)
    | none =>
      if net.sendUdp (dnsServerIp net) dnsSrcPort dnsPort (buildDnsQuery hostname) then
        pollAnswer maxPollIters deliveries
      else return (.error "dns: failed to send UDP query", deliveries)

/-! ### The cache -/

/-- `DnsCacheEntry`. -/
structure DnsCacheEntry where
  hostname : String
  ip : Ipv4Addr
  expiryTick : Nat
  deriving DecidableEq

/-- `resolve_with_cache`, with the cache afterwards and what is left of the deliveries. -/
def resolveWithCache (cache : List DnsCacheEntry) (now : Nat) (net : Network)
    (deliveries : List (Option Bytes)) (hostname : String) :
    Exec (Except String Ipv4Addr × List DnsCacheEntry × List (Option Bytes)) :=
  let cache := cache.filter fun e => now < e.expiryTick
  match cache.find? (·.hostname = hostname) with
  | some e => return (.ok e.ip, cache, deliveries)
  | none => do
    match ← resolve net deliveries hostname with
    | (.error message, rest) => return (.error message, cache, rest)
    | (.ok ip, rest) => do
      let expiryTick ← u64 (now + cacheTtlTicks)
      return (.ok ip, cache ++ [⟨hostname, ip, expiryTick⟩], rest)

end MerlionKernel.Dns
