import MerlionKernel.Net.Address
import MerlionKernel.Rust.Split

/-!
# DNS messages

The query that `dhcp.rs` builds for a host name, and its reader of responses. A message is a
header of 12 bytes, the questions and the answers. Each of these begins with a name: labels
with their lengths in front, up to a length of zero or to a pointer, which says where in the
message the name goes on. To step over a name, `skip_dns_name` follows its pointers wherever
they lead. How many rounds of this loop are made is not bounded by anything in the source,
and the functions below take the number of rounds as a parameter.
-/

namespace MerlionKernel.Dns

open Rust Net

/-! ### Constants -/

def dnsHeaderLen : Nat := 12
def dnsFlagRd : Nat := 0x0100
def dnsQtypeA : Nat := 1
def dnsQclassIn : Nat := 1
def dnsTypeA : Nat := 1
def dnsDefaultId : Nat := 0x4D4E

/-! ### Queries -/

/-- A label with its length in front, of which the lowest byte is sent. -/
def encodeLabel (label : String) : Bytes :=
  UInt8.ofNat (asBytes label).length :: asBytes label

/-- `build_dns_query`. -/
def buildDnsQuery (hostname : String) : Bytes :=
  toBe 2 dnsDefaultId ++ toBe 2 dnsFlagRd ++ toBe 2 1 ++ [0, 0, 0, 0, 0, 0] ++
    ((split hostname '.').flatMap encodeLabel ++ [0]) ++ toBe 2 dnsQtypeA ++ toBe 2 dnsQclassIn

/-! ### Responses -/

/-- `get_u16`. -/
def getU16 (data : Bytes) (offset : Nat) : Exec Nat := do
  let high ← index data offset
  let low ← index data (offset + 1)
  return high.toNat <<< 8 ||| low.toNat

/-- The variables of the loop of `skip_dns_name`. -/
structure SkipState where
  offset : Nat
  jumped : Bool
  endOffset : Nat

/-- One round of the loop of `skip_dns_name`. -/
def skipRound (data : Bytes) (s : SkipState) : Exec (ControlFlow SkipState (Option Nat)) :=
  if data.length ≤ s.offset then return .stop none
  else do
    let len := (← index data s.offset).toNat
    if len = 0 then
      return .stop (some (if s.jumped then s.endOffset else s.offset + 1))
    else if len &&& 0xC0 = 0xC0 then
      let endOffset := if s.jumped then s.endOffset else s.offset + 2
      if data.length ≤ s.offset + 1 then return .stop none
      else do
        let low ← index data (s.offset + 1)
        return .again ⟨(len &&& 0x3F) <<< 8 ||| low.toNat, true, endOffset⟩
    -- The lengths 64 to 191, which no label has, are taken for lengths as well.
    else return .again { s with offset := s.offset + 1 + len }

/-- `skip_dns_name`, for the given number of rounds. -/
def skipDnsName (rounds : Nat) (data : Bytes) (offset : Nat) : Exec (Option Nat) :=
  loop (skipRound data) rounds ⟨offset, false, 0⟩

/-- The loop of `parse_dns_response` over the questions. -/
def skipQuestions (rounds : Nat) (data : Bytes) : Nat → Nat → Exec (Option Nat)
  | 0, offset => return some offset
  | questions + 1, offset => do
    match ← skipDnsName rounds data offset with
    | none => return none
    | some offset =>
      if data.length < offset + 4 then return none
      else skipQuestions rounds data questions (offset + 4)

/-- The loop of `parse_dns_response` over the answers. -/
def findAddress (rounds : Nat) (data : Bytes) : Nat → Nat → Exec (Option Ipv4Addr)
  | 0, _ => return none
  | answers + 1, offset => do
    match ← skipDnsName rounds data offset with
    | none => return none
    | some offset =>
      if data.length < offset + 10 then return none
      else do
        let rtype ← getU16 data offset
        let rdlen ← getU16 data (offset + 8)
        if data.length < offset + 10 + rdlen then return none
        else if rtype = dnsTypeA ∧ rdlen = 4 then do
          let ip ← Ipv4Addr.read data (offset + 10)
          return some ip
        else findAddress rounds data answers (offset + 10 + rdlen)

/-- `parse_dns_response`, where every name is given the same number of rounds. -/
def parseDnsResponseWithin (rounds : Nat) (data : Bytes) : Exec (Option Ipv4Addr) :=
  if data.length < dnsHeaderLen then return none
  else do
    let flags ← getU16 data 2
    if flags &&& 0x8000 = 0 then return none
    else if flags &&& 0x000F ≠ 0 then return none
    else do
      let qdcount ← getU16 data 4
      let ancount ← getU16 data 6
      if ancount = 0 then return none
      else
        match ← skipQuestions rounds data qdcount dnsHeaderLen with
        | none => return none
        | some offset => findAddress rounds data ancount offset

/-- `parse_dns_response`. A name that has not ended after one round for every byte and one
more never ends. -/
def parseDnsResponse (data : Bytes) : Exec (Option Ipv4Addr) :=
  parseDnsResponseWithin (data.length + 1) data

end MerlionKernel.Dns
