import MerlionKernel.Rust.Bytes
import MerlionKernel.Rust.Cursor

/-!
# Network addresses

The addresses of `net.rs` as they appear in packets.
-/

namespace MerlionKernel.Net

open Rust

/-- An IPv4 address, as its four octets. -/
structure Ipv4Addr where
  a : UInt8
  b : UInt8
  c : UInt8
  d : UInt8
  deriving DecidableEq

namespace Ipv4Addr

/-- `Ipv4Addr::ZERO`. -/
def zero : Ipv4Addr := ⟨0, 0, 0, 0⟩

/-- The octets in the order in which they are sent. -/
def octets (ip : Ipv4Addr) : Bytes := [ip.a, ip.b, ip.c, ip.d]

/-- The address at an offset of a packet. -/
def read (data : Bytes) (offset : Nat) : Exec Ipv4Addr := do
  let a ← index data offset
  let b ← index data (offset + 1)
  let c ← index data (offset + 2)
  let d ← index data (offset + 3)
  return ⟨a, b, c, d⟩

theorem read_returns {data : Bytes} {offset : Nat} (h : offset + 4 ≤ data.length) :
    Returns (read data offset) fun _ => True := by
  rw [read, index_eq_ok (by omega), ok_bind, index_eq_ok (by omega), ok_bind,
    index_eq_ok (by omega), ok_bind, index_eq_ok (by omega), ok_bind]
  exact .ok trivial

/-- What was read are the octets at the offset. -/
theorem window_of_read {data : Bytes} {offset : Nat} {ip : Ipv4Addr}
    (h : read data offset = .ok ip) : window data offset 4 = ip.octets := by
  obtain ⟨a, ha, h⟩ := bind_eq_ok_iff.mp h
  obtain ⟨b, hb, h⟩ := bind_eq_ok_iff.mp h
  obtain ⟨c, hc, h⟩ := bind_eq_ok_iff.mp h
  obtain ⟨d, hd, h⟩ := bind_eq_ok_iff.mp h
  cases h
  have hc : data.drop (offset + 1 + 1) = c :: data.drop (offset + 3) := drop_of_index hc
  rw [window, drop_of_index ha, drop_of_index hb, hc, drop_of_index hd]
  rfl

end Ipv4Addr

end MerlionKernel.Net
