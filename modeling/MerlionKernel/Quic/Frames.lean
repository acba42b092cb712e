import MerlionKernel.Rust.Reader
import MerlionKernel.Rust.Text

/-!
# QUIC frames

The variable-length integers and the frames of `quic.rs`. The decoder works on a slice and a
position, as `Reader` has it. A position never passes the end of the slice, which is shorter than
2^63 bytes; where a length from the frame is added to a position, the sum is checked.
-/

namespace MerlionKernel.Quic

open Rust

/-! ### Integers -/

/-- The last `n + 1` bytes of a value, with the two bits that give the size. -/
def sized (mask : UInt8) (n val : Nat) : Bytes :=
  (mask ||| UInt8.ofNat (val / 256 ^ n)) :: toBe n val

/-- Encode a variable-length integer. -/
def encodeVarint (val : Nat) : Bytes :=
  if val < 64 then [UInt8.ofNat val]
  else if val < 16384 then sized 0x40 1 val
  else if val < 1073741824 then sized 0x80 3 val
  else sized 0xC0 7 val

/-- An integer of `n + 1` bytes. -/
def decodeSized (data : Bytes) (n : Nat) : Exec (Except String (Nat × Nat)) := do
  if data.length < n + 1 then return .error "truncated varint"
  let first ← index data 0
  return .ok (fromBe ((first &&& 0x3F) :: (← bytesAt data 1 n)), n + 1)

/-- Decode a variable-length integer, with the number of bytes consumed. -/
def decodeVarint (data : Bytes) : Exec (Except String (Nat × Nat)) :=
  if data.isEmpty then return .error "empty varint"
  else do
    let first ← index data 0
    match (first >>> 6).toNat with
    | 0 => return .ok (first.toNat, 1)
    | 1 => decodeSized data 1
    | 2 => decodeSized data 3
    | _ => decodeSized data 7

/-! ### Connection identifiers -/

/-- A connection identifier: `len` of eight bytes. Whatever builds one begins with eight zeros and
fills in the first `len` bytes, so those behind are zero. -/
structure ConnectionId where
  bytes : Block 8
  len : Nat
  len_le : len ≤ 8
  zero_behind : bytes.1.drop len = List.replicate (8 - len) 0

namespace ConnectionId

/-- The identifier's own bytes. -/
def asBytes (cid : ConnectionId) : Bytes := cid.bytes.1.take cid.len

/-- The empty identifier, into which some bytes are copied. -/
def copied (bs : Bytes) (h : bs.length ≤ 8) : ConnectionId where
  bytes := ⟨bs ++ List.replicate (8 - bs.length) 0, by simp; omega⟩
  len := bs.length
  len_le := h
  zero_behind := List.drop_left

end ConnectionId

/-! ### Frames -/

/-- A frame. The integers are `u64`. -/
inductive QuicFrame
  | padding
  | ping
  | ack (largest delay : Nat) (ranges : List (Nat × Nat))
  | resetStream (streamId errorCode finalSize : Nat)
  | stopSending (streamId errorCode : Nat)
  | crypto (offset : Nat) (data : Bytes)
  | newToken (token : Bytes)
  | stream (streamId offset : Nat) (data : Bytes) (fin : Bool)
  | maxData (max : Nat)
  | maxStreamData (streamId max : Nat)
  | maxStreams (bidi : Bool) (max : Nat)
  | dataBlocked (limit : Nat)
  | streamDataBlocked (streamId limit : Nat)
  | newConnectionId (seq retire : Nat) (cid : ConnectionId) (token : Block 16)
  | retireConnectionId (seq : Nat)
  | pathChallenge (data : Block 8)
  | pathResponse (data : Block 8)
  | connectionClose (errorCode frameType : Nat) (reason : String)
  | handshakeDone

/-- The type of a STREAM frame: the length is always there, the offset unless it is 0. -/
def streamType (offset : Nat) (fin : Bool) : UInt8 :=
  0x08 ||| (if offset > 0 then 0x04 else 0) ||| 0x02 ||| (if fin then 0x01 else 0)

/-- Encode a frame into bytes. -/
def encodeFrame : QuicFrame → Bytes
  | .padding => [0x00]
  | .ping => [0x01]
  | .ack largest delay ranges =>
    0x02 :: (encodeVarint largest ++ (encodeVarint delay ++ (encodeVarint ranges.length ++
      ranges.flatMap fun (gap, len) => encodeVarint gap ++ encodeVarint len)))
  | .resetStream streamId errorCode finalSize =>
    0x04 :: (encodeVarint streamId ++ (encodeVarint errorCode ++ encodeVarint finalSize))
  | .stopSending streamId errorCode =>
    0x05 :: (encodeVarint streamId ++ encodeVarint errorCode)
  | .crypto offset data =>
    0x06 :: (encodeVarint offset ++ (encodeVarint data.length ++ data))
  | .newToken token => 0x07 :: (encodeVarint token.length ++ token)
  | .stream streamId offset data fin =>
    streamType offset fin :: (encodeVarint streamId ++
      ((if offset > 0 then encodeVarint offset else []) ++
        (encodeVarint data.length ++ data)))
  | .maxData max => 0x10 :: encodeVarint max
  | .maxStreamData streamId max => 0x11 :: (encodeVarint streamId ++ encodeVarint max)
  | .maxStreams bidi max => (if bidi then 0x12 else 0x13) :: encodeVarint max
  | .dataBlocked limit => 0x14 :: encodeVarint limit
  | .streamDataBlocked streamId limit =>
    0x15 :: (encodeVarint streamId ++ encodeVarint limit)
  | .newConnectionId seq retire cid token =>
    0x18 :: (encodeVarint seq ++ (encodeVarint retire ++
      ([UInt8.ofNat cid.len] ++ (cid.asBytes ++ token.1))))
  | .retireConnectionId seq => 0x19 :: encodeVarint seq
  | .pathChallenge data => 0x1A :: data.1
  | .pathResponse data => 0x1B :: data.1
  | .connectionClose errorCode frameType reason =>
    0x1C :: (encodeVarint errorCode ++ (encodeVarint frameType ++
      (encodeVarint (asBytes reason).length ++ asBytes reason)))
  | .handshakeDone => [0x1E]

/-- The integer at the position. -/
def varint : Reader String Nat := Reader.rest decodeVarint

/-- The next `length` bytes, or an error where they do not lie in the slice. -/
def body (length : Nat) (truncated : String) : Reader String Bytes := fun data pos => do
  let end' ← u64 (pos + length)
  if end' > data.1.length then return .error truncated
  return .ok (← slice data.1 pos end', end')

/-- The length of a STREAM frame that gives none: all that is left. -/
def left : Reader String Nat := fun data pos => return .ok (← sub data.1.length pos, pos)

/-- An array of `n` bytes. -/
def block (n : Nat) (truncated : String) : Reader String (Block n) := fun data pos => do
  if data.1.length < pos + n then return .error truncated
  let bs ← slice data.1 pos (pos + n)
  if h : bs.length = n then return .ok (⟨bs, h⟩, pos + n) else .error .panicked

/-- The connection identifier of a NEW_CONNECTION_ID frame and the token behind it. Of a longer
identifier the first eight bytes are kept. -/
def cidAndToken : Reader String (ConnectionId × Block 16) := fun data pos => do
  if pos ≥ data.1.length then return .error "truncated NEW_CONNECTION_ID"
  let cidLen := (← index data.1 pos).toNat
  let pos := pos + 1
  if pos + cidLen + 16 > data.1.length then return .error "truncated NEW_CONNECTION_ID"
  let bs ← bytesAt data.1 pos (min cidLen 8)
  let pos := pos + cidLen
  let token ← slice data.1 pos (pos + 16)
  if h : bs.length ≤ 8 ∧ token.length = 16 then
    return .ok ((ConnectionId.copied bs h.1, ⟨token, h.2⟩), pos + 16)
  else .error .panicked

/-- The reason of a CONNECTION_CLOSE frame. One that does not lie in the slice is empty, and so is
one that is no UTF-8. -/
def reason (length : Nat) : Reader String String := fun data pos => do
  let end' ← u64 (pos + length)
  if end' ≤ data.1.length then
    return .ok ((fromUtf8 (← slice data.1 pos end')).getD "", end')
  else return .ok ("", data.1.length)

/-- A range of an ACK frame. -/
def range : Reader String (Nat × Nat) := do
  let gap ← varint
  let len ← varint
  return (gap, len)

/-- A STREAM frame, with the bits of its type. -/
def streamBody (frameType : UInt8) : Reader String QuicFrame := do
  let streamId ← varint
  let offset ← (if frameType &&& 0x04 ≠ 0 then varint else pure 0)
  let length ← (if frameType &&& 0x02 ≠ 0 then varint else left)
  let data ← body length "truncated STREAM frame"
  return .stream streamId offset data (frameType &&& 0x01 ≠ 0)

/-- What follows the type of a frame. -/
def frameBody (frameType : UInt8) : Reader String QuicFrame :=
  match frameType.toNat with
  | 0x00 => pure .padding
  | 0x01 => pure .ping
  | 0x02 | 0x03 => do
    let largest ← varint
    let delay ← varint
    let rangeCount ← varint
    let ranges ← range.times rangeCount
    return .ack largest delay ranges
  | 0x04 => do
    let streamId ← varint
    let errorCode ← varint
    let finalSize ← varint
    return .resetStream streamId errorCode finalSize
  | 0x05 => do
    let streamId ← varint
    let errorCode ← varint
    return .stopSending streamId errorCode
  | 0x06 => do
    let offset ← varint
    let length ← varint
    let data ← body length "truncated CRYPTO frame"
    return .crypto offset data
  | 0x07 => do
    let length ← varint
    let token ← body length "truncated NEW_TOKEN"
    return .newToken token
  | 0x08 | 0x09 | 0x0A | 0x0B | 0x0C | 0x0D | 0x0E | 0x0F => streamBody frameType
  | 0x10 => do
    let max ← varint
    return .maxData max
  | 0x11 => do
    let streamId ← varint
    let max ← varint
    return .maxStreamData streamId max
  | 0x12 | 0x13 => do
    let max ← varint
    return .maxStreams (frameType = 0x12) max
  | 0x14 => do
    let limit ← varint
    return .dataBlocked limit
  | 0x15 => do
    let streamId ← varint
    let limit ← varint
    return .streamDataBlocked streamId limit
  | 0x18 => do
    let seq ← varint
    let retire ← varint
    let (cid, token) ← cidAndToken
    return .newConnectionId seq retire cid token
  | 0x19 => do
    let seq ← varint
    return .retireConnectionId seq
  | 0x1A => do
    let challenge ← block 8 "truncated PATH_CHALLENGE"
    return .pathChallenge challenge
  | 0x1B => do
    let response ← block 8 "truncated PATH_RESPONSE"
    return .pathResponse response
  | 0x1C | 0x1D => do
    let errorCode ← varint
    let frameTypeVal ← (if frameType = 0x1C then varint else pure 0)
    let rlen ← varint
    let text ← reason rlen
    return .connectionClose errorCode frameTypeVal text
  | 0x1E => pure .handshakeDone
  | _ => Reader.fail "unknown frame type"

/-- Decode a frame from bytes, with the number of bytes consumed. -/
def decodeFrame (data : Buffer) : Exec (Except String (QuicFrame × Nat)) :=
  if data.1.isEmpty then return .error "empty frame data"
  else do
    let frameType ← index data.1 0
    frameBody frameType data 1

end MerlionKernel.Quic
