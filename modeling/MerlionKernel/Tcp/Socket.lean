import MerlionKernel.Net.Address

/-!
# TCP sockets

The receive side of `tcp_real.rs`: the header of a segment, the state machine of a socket and the
table of sockets to which incoming frames are dispatched. A call of `send_segment` is recorded with
its arguments; what the network does with the segment is not part of the model.
-/

namespace MerlionKernel.Tcp

open Rust Net

/-- `IP_PROTO_TCP`. -/
def ipProtoTcp : UInt8 := 6

/-- `TCP_HEADER_LEN`. -/
def tcpHeaderLen : Nat := 20

/-- `RECV_BUF_CAP`. -/
def recvBufCap : Nat := 65536

/-- `ETH_TYPE_IP`. -/
def ethTypeIp : UInt16 := 0x0800

def tcpFin : UInt8 := 0x01
def tcpSyn : UInt8 := 0x02
def tcpRst : UInt8 := 0x04
def tcpAck : UInt8 := 0x10

/-! ### Segments -/

/-- A TCP header in host byte order. -/
structure TcpHeader where
  srcPort : UInt16
  dstPort : UInt16
  seq : UInt32
  ack : UInt32
  dataOffsetFlags : UInt16
  window : UInt16
  checksum : UInt16
  urgent : UInt16
  deriving DecidableEq

/-- `u16::from_be_bytes` of two bytes of a segment. -/
def u16At (data : Bytes) (off : Nat) : Exec UInt16 := do
  return UInt16.ofNat (fromBe (← bytesAt data off 2))

/-- `u32::from_be_bytes` of four bytes of a segment. -/
def u32At (data : Bytes) (off : Nat) : Exec UInt32 := do
  return UInt32.ofNat (fromBe (← bytesAt data off 4))

theorem u16At_eq_ok {data : Bytes} {off : Nat} (h : off + 2 ≤ data.length) :
    u16At data off = .ok (UInt16.ofNat (fromBe (window data off 2))) := by
  rw [u16At, bytesAt_eq_ok h]
  rfl

theorem u32At_eq_ok {data : Bytes} {off : Nat} (h : off + 4 ≤ data.length) :
    u32At data off = .ok (UInt32.ofNat (fromBe (window data off 4))) := by
  rw [u32At, bytesAt_eq_ok h]
  rfl

theorem u16At_toBe {front rest : Bytes} (x : UInt16) :
    u16At (front ++ (toBe 2 x.toNat ++ rest)) front.length = .ok x := by
  rw [u16At_eq_ok (by simp), window, List.drop_left, List.take_left' (length_toBe 2 _),
    fromBe_toBe, Nat.mod_eq_of_lt (by exact x.toNat_lt), UInt16.ofNat_toNat]

theorem u32At_toBe {front rest : Bytes} (x : UInt32) :
    u32At (front ++ (toBe 4 x.toNat ++ rest)) front.length = .ok x := by
  rw [u32At_eq_ok (by simp), window, List.drop_left, List.take_left' (length_toBe 4 _),
    fromBe_toBe, Nat.mod_eq_of_lt (by exact x.toNat_lt), UInt32.ofNat_toNat]

/-- The header of a segment, if it is long enough. -/
def parseTcpHeader (data : Bytes) : Exec (Option TcpHeader) :=
  if data.length < tcpHeaderLen then return none
  else do
    let srcPort ← u16At data 0
    let dstPort ← u16At data 2
    let seq ← u32At data 4
    let ack ← u32At data 8
    let dataOffsetFlags ← u16At data 12
    let window ← u16At data 14
    let checksum ← u16At data 16
    let urgent ← u16At data 18
    return some { srcPort, dstPort, seq, ack, dataOffsetFlags, window, checksum, urgent }

/-- The flags of a header. -/
def headerFlags (hdr : TcpHeader) : UInt8 := (hdr.dataOffsetFlags &&& 0x3F).toUInt8

/-- What follows the header, as its data offset says. -/
def segmentPayload (data : Bytes) : Exec Bytes :=
  if data.length < tcpHeaderLen then return []
  else do
    let offset := ((← index data 12) >>> 4).toNat * 4
    if offset ≥ data.length then return [] else slice data offset data.length

theorem segmentPayload_returns (data : Bytes) :
    Returns (segmentPayload data) fun payload => payload.length ≤ data.length := by
  unfold segmentPayload
  by_cases hlen : data.length < tcpHeaderLen
  · rw [if_pos hlen]
    exact .ok (Nat.zero_le _)
  have hat : 12 < data.length := by
    have hheader : tcpHeaderLen = 20 := rfl
    omega
  rw [if_neg hlen, index_eq_ok hat, ok_bind]
  dsimp only
  split_ifs with hoff
  · exact .ok (Nat.zero_le _)
  · rw [slice_eq_ok (by omega) le_rfl]
    refine .ok ?_
    rw [List.length_take, List.length_drop]
    omega

/-! ### Sockets -/

/-- States of the TCP state machine. -/
inductive TcpState
  | closed
  | listen
  | synSent
  | synReceived
  | established
  | finWait1
  | finWait2
  | closeWait
  | closing
  | lastAck
  | timeWait
  deriving DecidableEq

/-- A TCP connection; `ackNum` is the next sequence number expected from the peer. -/
structure TcpSocket where
  state : TcpState
  seqNum : UInt32
  ackNum : UInt32
  localIp : Ipv4Addr
  localPort : UInt16
  remoteIp : Ipv4Addr
  remotePort : UInt16
  recvBuf : Bytes

/-- The arguments of `send_segment`. -/
structure Sent where
  srcIp : Ipv4Addr
  dstIp : Ipv4Addr
  srcPort : UInt16
  dstPort : UInt16
  seq : UInt32
  ack : UInt32
  flags : UInt8
  payload : Bytes

namespace TcpSocket

/-- An established connection, as `connect` and `register_established` enter it. -/
def registerEstablished (localIp : Ipv4Addr) (localPort : UInt16) (remoteIp : Ipv4Addr)
    (remotePort : UInt16) (seqNum ackNum : UInt32) : TcpSocket where
  state := .established
  seqNum := seqNum
  ackNum := ackNum
  localIp := localIp
  localPort := localPort
  remoteIp := remoteIp
  remotePort := remotePort
  recvBuf := []

/-- The acknowledgement of everything up to `ackNum`. -/
def acknowledgement (sock : TcpSocket) : Sent where
  srcIp := sock.localIp
  dstIp := sock.remoteIp
  srcPort := sock.localPort
  dstPort := sock.remotePort
  seq := sock.seqNum
  ack := sock.ackNum
  flags := tcpAck
  payload := []

/-- Nothing happens. -/
def ignore (sock : TcpSocket) : TcpSocket × List Sent := (sock, [])

/-- Go to a state and acknowledge. -/
def acknowledge (sock : TcpSocket) (ackNum : UInt32) (state : TcpState) : TcpSocket × List Sent :=
  ({ sock with ackNum, state }, [{ sock with ackNum, state }.acknowledgement])

/-- A segment in `Established`. -/
def receiveEstablished (sock : TcpSocket) (hdr : TcpHeader) (payload : Bytes) :
    Exec (TcpSocket × List Sent) :=
  if headerFlags hdr &&& tcpFin ≠ 0 then
    return sock.acknowledge (hdr.seq + UInt32.ofNat payload.length + 1) .closeWait
  else if payload ≠ [] ∧ headerFlags hdr &&& tcpAck ≠ 0 then
    if hdr.seq = sock.ackNum then do
      let total ← u64 (sock.recvBuf.length + payload.length)
      let recvBuf := if total ≤ recvBufCap then sock.recvBuf ++ payload else sock.recvBuf
      return { sock with recvBuf }.acknowledge (sock.ackNum + UInt32.ofNat payload.length)
        .established
    else return sock.acknowledge sock.ackNum .established
  else return sock.ignore

/-- A segment in `FinWait1`. -/
def receiveFinWait1 (sock : TcpSocket) (hdr : TcpHeader) : TcpSocket × List Sent :=
  if headerFlags hdr &&& tcpFin ≠ 0 ∧ headerFlags hdr &&& tcpAck ≠ 0 then
    sock.acknowledge (hdr.seq + 1) .timeWait
  else if headerFlags hdr &&& tcpAck ≠ 0 then { sock with state := .finWait2 }.ignore
  else if headerFlags hdr &&& tcpFin ≠ 0 then sock.acknowledge (hdr.seq + 1) .closing
  else sock.ignore

/-- Go to a state when the flag is set. -/
def onFlag (sock : TcpSocket) (hdr : TcpHeader) (flag : UInt8) (state : TcpState) :
    TcpSocket × List Sent :=
  if headerFlags hdr &&& flag ≠ 0 then { sock with state }.ignore else sock.ignore

/-- The state machine. -/
def receive (sock : TcpSocket) (hdr : TcpHeader) (payload : Bytes) :
    Exec (TcpSocket × List Sent) :=
  if headerFlags hdr &&& tcpRst ≠ 0 then return { sock with state := .closed }.ignore
  else
    match sock.state with
    | .synSent =>
      if headerFlags hdr &&& (tcpSyn ||| tcpAck) = tcpSyn ||| tcpAck then
        return sock.acknowledge (hdr.seq + 1) .established
      else return sock.ignore
    | .synReceived => return sock.onFlag hdr tcpAck .established
    | .established => sock.receiveEstablished hdr payload
    | .finWait1 => return sock.receiveFinWait1 hdr
    | .finWait2 =>
      if headerFlags hdr &&& tcpFin ≠ 0 then return sock.acknowledge (hdr.seq + 1) .timeWait
      else return sock.ignore
    | .closing => return sock.onFlag hdr tcpAck .timeWait
    | .lastAck => return sock.onFlag hdr tcpAck .closed
    | .closeWait | .timeWait | .listen | .closed => return sock.ignore

/-- Process an incoming segment. -/
def processIncoming (sock : TcpSocket) (segment : Bytes) : Exec (TcpSocket × List Sent) := do
  match ← parseTcpHeader segment with
  | none => return sock.ignore
  | some hdr => sock.receive hdr (← segmentPayload segment)

/-- Read what has accumulated. -/
def recv (sock : TcpSocket) : Except String Bytes × TcpSocket :=
  if sock.state = .closed then (.error "socket closed", sock)
  else (.ok sock.recvBuf, { sock with recvBuf := [] })

end TcpSocket

/-! ### The table -/

/-- A received Ethernet frame. -/
structure Frame where
  ethertype : UInt16
  payload : Buffer

/-- The socket that `poll_incoming` finds for a source address and a destination port. -/
def isTarget (srcIp : Ipv4Addr) (dstPort : UInt16) (sock : TcpSocket) : Bool :=
  sock.localPort = dstPort && sock.remoteIp = srcIp && sock.state ≠ .closed

/-- The table after the segment of a frame, and whether the frame was dispatched. -/
def pollFrame (sockets : List TcpSocket) (frame : Frame) :
    Exec (List TcpSocket × List Sent × Bool) :=
  let ip := frame.payload.1
  if frame.ethertype ≠ ethTypeIp then return (sockets, [], false)
  else if ip.length < 20 then return (sockets, [], false)
  else do
    if (← index ip 9) ≠ ipProtoTcp then return (sockets, [], false)
    else do
      let ihl := ((← index ip 0) &&& 0x0F).toNat * 4
      if ip.length < ihl + tcpHeaderLen then return (sockets, [], false)
      else do
        let tcpData ← slice ip ihl ip.length
        let dstPort ← u16At tcpData 2
        let srcIp ← Ipv4Addr.read ip 12
        match sockets.findIdx? (isTarget srcIp dstPort) with
        | none => return (sockets, [], false)
        | some id => do
          let (sock, sent) ← (← index sockets id).processIncoming tcpData
          return (sockets.set id sock, sent, true)

/-- Dispatch the frames that have arrived, and count those dispatched. -/
def pollIncoming (sockets : List TcpSocket) (frames : List Frame) :
    Exec (List TcpSocket × List Sent × Nat) :=
  frames.foldlM (fun (sockets, sent, dispatched) frame => do
    let (sockets, more, done) ← pollFrame sockets frame
    return (sockets, sent ++ more, ← u64 (dispatched + if done then 1 else 0)))
    (sockets, [], 0)

end MerlionKernel.Tcp
