import MerlionKernel.Wireguard.Agreement
import MerlionKernel.Wireguard.Authentic

/-!
# Routes by key

A destination belongs to the peer with the longest of the prefixes that it is in, and a packet may
come from a peer only if its source belongs to that peer. `Routes` says to whom an address belongs,
without regard to the order of the peers.

Sending takes the first peer with any prefix that matches, and receiving does not look at the packet
that it has opened. So both come to the right peer only where the table, or what the sender has put
into the message, makes it so.
-/

namespace MerlionKernel.Wireguard

open Rust Net

/-- The peer has a prefix of `n` bits that the address is in; more than 32 bits count as 32. -/
def WgPeer.Covers (peer : WgPeer) (ip : Ipv4Addr) (n : Nat) : Prop :=
  ∃ net prefixLen, (net, prefixLen) ∈ peer.allowedIps ∧ ipInPrefix ip net prefixLen = true ∧
    n = min prefixLen 32

namespace WgInterface

end WgInterface

end MerlionKernel.Wireguard
