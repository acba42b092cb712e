import Mathlib.Data.List.Basic
import MerlionKernel.Rust.Find
import MerlionKernel.Tcp.Socket

/-!
# Dispatching segments to sockets

`poll_incoming` gives a segment to the first open socket with its destination port and its source
address. It does not look at the source port. Two connections from one host to one local port
therefore share the first of their sockets: what the second one sends changes the state of the
first, unless that socket ignores it.
-/

namespace MerlionKernel.Tcp

open Rust Net

/-! ### Tables and segments -/

/-- The table of sockets; no buffer is longer than a vector can be. -/
structure Table where
  sockets : List TcpSocket
  buffers : ∀ sock ∈ sockets, sock.recvBuf.length < 9223372036854775808

/-- An IPv4 frame that carries a TCP segment. -/
structure Incoming where
  frame : Frame
  ihl : Nat
  srcIp : Ipv4Addr
  hdr : TcpHeader
  payload : Bytes
  is_ip : frame.ethertype = ethTypeIp
  is_tcp : index frame.payload.1 9 = .ok ipProtoTcp
  ihl_eq : ∃ first, index frame.payload.1 0 = .ok first ∧ ihl = (first &&& 0x0F).toNat * 4
  long : 20 ≤ frame.payload.1.length ∧ ihl + tcpHeaderLen ≤ frame.payload.1.length
  srcIp_eq : Ipv4Addr.read frame.payload.1 12 = .ok srcIp
  header_eq : parseTcpHeader (frame.payload.1.drop ihl) = .ok (some hdr)
  payload_eq : segmentPayload (frame.payload.1.drop ihl) = .ok payload

/-- At most one socket has changed, and only a listening one or one whose local port, remote
address and remote port are the destination port, the source address and the source port of the
segment. -/
def Isolated (seg : Incoming) (before after : List TcpSocket) : Prop :=
  ∃ i : Nat, (∀ j : Nat, j ≠ i → after[j]? = before[j]?) ∧
    (after[i]? = before[i]? ∨ ∃ sock : TcpSocket, before[i]? = some sock ∧
      (sock.state = .listen ∨ sock.localPort = seg.hdr.dstPort ∧ sock.remoteIp = seg.srcIp ∧
        sock.remotePort = seg.hdr.srcPort))

/-- The segment leaves a socket that is not closed as it is. -/
def Ignores (sock : TcpSocket) (hdr : TcpHeader) (payload : Bytes) : Prop :=
  headerFlags hdr &&& tcpRst = 0 ∧
    match sock.state with
    | .synSent => headerFlags hdr &&& (tcpSyn ||| tcpAck) ≠ tcpSyn ||| tcpAck
    | .synReceived | .closing | .lastAck => headerFlags hdr &&& tcpAck = 0
    | .established => headerFlags hdr &&& tcpFin = 0 ∧
      (payload = [] ∨ headerFlags hdr &&& tcpAck = 0 ∨ hdr.seq ≠ sock.ackNum ∨
        recvBufCap < sock.recvBuf.length + payload.length ∧ UInt32.ofNat payload.length = 0)
    | .finWait1 => headerFlags hdr &&& tcpFin = 0 ∧ headerFlags hdr &&& tcpAck = 0
    | .finWait2 => headerFlags hdr &&& tcpFin = 0
    | .closeWait | .timeWait | .listen | .closed => True

/-- The first open socket with the segment's destination port and source address listens, or has
its source port too, or ignores the segment. -/
def Matched (sockets : List TcpSocket) (seg : Incoming) : Prop :=
  ∀ sock, sockets.find? (isTarget seg.srcIp seg.hdr.dstPort) = some sock →
    sock.state = .listen ∨ sock.remotePort = seg.hdr.srcPort ∨ Ignores sock seg.hdr seg.payload

/-! ### One socket -/

section Socket

variable {sock : TcpSocket} {hdr : TcpHeader} {payload : Bytes}

/-- A change of the state is a change of the socket. -/
theorem ne_of_state_ne {sock sock' : TcpSocket} (h : sock'.state ≠ sock.state) :
    sock' ≠ sock := fun heq => h (congrArg TcpSocket.state heq)

theorem acknowledge_ne {state : TcpState} (h : state ≠ sock.state) (ackNum : UInt32) :
    (sock.acknowledge ackNum state).1 ≠ sock :=
  ne_of_state_ne h

theorem acknowledge_self (h : sock.state = .established) :
    (sock.acknowledge sock.ackNum .established).1 = sock := by
  rw [← h]
  rfl

theorem onFlag_outcome {state : TcpState} (hstate : state ≠ sock.state) (flag : UInt8) :
    (sock.onFlag hdr flag state).1 = sock ↔ headerFlags hdr &&& flag = 0 := by
  unfold TcpSocket.onFlag
  split_ifs with hflag
  · exact iff_of_false (ne_of_state_ne hstate) hflag
  · exact iff_of_true rfl (not_not.mp hflag)

theorem receiveFinWait1_outcome (hstate : sock.state = .finWait1) :
    (sock.receiveFinWait1 hdr).1 = sock ↔
      headerFlags hdr &&& tcpFin = 0 ∧ headerFlags hdr &&& tcpAck = 0 := by
  unfold TcpSocket.receiveFinWait1
  split_ifs with hboth hack hfin
  · exact iff_of_false (acknowledge_ne (by rw [hstate]; decide) _) fun h => hboth.1 h.1
  · exact iff_of_false (ne_of_state_ne (show TcpState.finWait2 ≠ _ by rw [hstate]; decide))
      fun h => hack h.2
  · exact iff_of_false (acknowledge_ne (by rw [hstate]; decide) _) fun h => hfin h.1
  · exact iff_of_true rfl ⟨not_not.mp hfin, not_not.mp hack⟩

theorem receiveEstablished_outcome (hdr : TcpHeader) (hstate : sock.state = .established)
    (hlen : sock.recvBuf.length + payload.length < 2 ^ 64) :
    ∃ sock' sent, sock.receiveEstablished hdr payload = .ok (sock', sent) ∧
      (sock' = sock ↔ headerFlags hdr &&& tcpFin = 0 ∧
        (payload = [] ∨ headerFlags hdr &&& tcpAck = 0 ∨ hdr.seq ≠ sock.ackNum ∨
          recvBufCap < sock.recvBuf.length + payload.length ∧
            UInt32.ofNat payload.length = 0)) := by
  unfold TcpSocket.receiveEstablished
  by_cases hfin : headerFlags hdr &&& tcpFin ≠ 0
  · rw [if_pos hfin]
    exact ⟨_, _, rfl, iff_of_false (acknowledge_ne (by rw [hstate]; decide) _) fun h => hfin h.1⟩
  rw [if_neg hfin]
  rw [not_not] at hfin
  by_cases hdata : payload ≠ [] ∧ headerFlags hdr &&& tcpAck ≠ 0
  · rw [if_pos hdata]
    by_cases hseq : hdr.seq = sock.ackNum
    · rw [if_pos hseq, u64_eq_ok hlen, ok_bind]
      refine ⟨_, _, rfl, ?_⟩
      by_cases hfits : sock.recvBuf.length + payload.length ≤ recvBufCap
      · -- the buffer has grown
        refine iff_of_false (fun heq => hdata.1 ?_) ?_
        · have hbuf := congrArg TcpSocket.recvBuf heq
          dsimp only [TcpSocket.acknowledge] at hbuf
          rw [if_pos hfits] at hbuf
          exact List.append_right_eq_self.mp hbuf
        · rintro ⟨-, h | h | h | h⟩
          · exact hdata.1 h
          · exact hdata.2 h
          · exact h hseq
          · exact absurd hfits (not_le.mpr h.1)
      · -- the data is dropped, and its length is added to the acknowledgement number
        have hsame : (sock.acknowledge (sock.ackNum + UInt32.ofNat payload.length)
            .established).1 = sock ↔ UInt32.ofNat payload.length = 0 := by
          constructor
          · intro heq
            have hack := congrArg TcpSocket.ackNum heq
            dsimp only [TcpSocket.acknowledge] at hack
            exact UInt32.add_eq_left.mp hack
          · intro hzero
            rw [hzero, UInt32.add_zero, acknowledge_self hstate]
        rw [if_neg hfits]
        refine hsame.trans ⟨fun hzero => ⟨hfin, .inr (.inr (.inr ⟨not_le.mp hfits, hzero⟩))⟩, ?_⟩
        rintro ⟨-, h | h | h | h⟩
        · exact absurd h hdata.1
        · exact absurd h hdata.2
        · exact absurd hseq h
        · exact h.2
    · rw [if_neg hseq]
      exact ⟨_, _, rfl, iff_of_true (acknowledge_self hstate) ⟨hfin, .inr (.inr (.inl hseq))⟩⟩
  · rw [if_neg hdata]
    rw [not_and_or, not_not, not_not] at hdata
    exact ⟨_, _, rfl, iff_of_true rfl ⟨hfin, hdata.imp_right .inl⟩⟩

/-- Every segment is processed, and the socket stays as it is exactly when it ignores the
segment. -/
theorem receive_outcome (hdr : TcpHeader) (hopen : sock.state ≠ .closed)
    (hlen : sock.recvBuf.length + payload.length < 2 ^ 64) :
    ∃ sock' sent, sock.receive hdr payload = .ok (sock', sent) ∧
      (sock' = sock ↔ Ignores sock hdr payload) := by
  unfold TcpSocket.receive Ignores
  by_cases hrst : headerFlags hdr &&& tcpRst ≠ 0
  · rw [if_pos hrst]
    exact ⟨_, _, rfl, iff_of_false (ne_of_state_ne hopen.symm) fun h => hrst h.1⟩
  rw [if_neg hrst]
  rw [not_not] at hrst
  rw [hrst]
  cases hstate : sock.state with
  | synSent =>
    dsimp only
    split_ifs with hsyn
    · exact ⟨_, _, rfl, iff_of_false (acknowledge_ne (by rw [hstate]; decide) _)
        fun h => h.2 hsyn⟩
    · exact ⟨_, _, rfl, iff_of_true rfl ⟨rfl, hsyn⟩⟩
  | synReceived =>
    exact ⟨_, _, rfl, (onFlag_outcome (by rw [hstate]; decide) _).trans (by simp)⟩
  | established =>
    obtain ⟨sock', sent, hok, hiff⟩ := receiveEstablished_outcome hdr hstate hlen
    exact ⟨sock', sent, hok, hiff.trans (by simp)⟩
  | finWait1 =>
    refine ⟨_, _, rfl, (receiveFinWait1_outcome hstate).trans (by simp)⟩
  | finWait2 =>
    dsimp only
    split_ifs with hfin
    · exact ⟨_, _, rfl, iff_of_false (acknowledge_ne (by rw [hstate]; decide) _)
        fun h => hfin h.2⟩
    · exact ⟨_, _, rfl, iff_of_true rfl ⟨rfl, not_not.mp hfin⟩⟩
  | closing =>
    exact ⟨_, _, rfl, (onFlag_outcome (by rw [hstate]; decide) _).trans (by simp)⟩
  | lastAck =>
    exact ⟨_, _, rfl, (onFlag_outcome (by rw [hstate]; decide) _).trans (by simp)⟩
  | closeWait | timeWait | listen | closed =>
    exact ⟨_, _, rfl, iff_of_true rfl ⟨rfl, trivial⟩⟩

end Socket

/-! ### The table -/

/-- The header holds the destination port that `poll_incoming` reads. -/
theorem dstPort_of_parse {data : Bytes} {hdr : TcpHeader}
    (h : parseTcpHeader data = .ok (some hdr)) : u16At data 2 = .ok hdr.dstPort := by
  unfold parseTcpHeader at h
  by_cases hlen : data.length < tcpHeaderLen
  · rw [if_pos hlen] at h
    cases h
  rw [if_neg hlen] at h
  obtain ⟨srcPort, -, h⟩ := bind_eq_ok_iff.mp h
  obtain ⟨dstPort, hdst, h⟩ := bind_eq_ok_iff.mp h
  obtain ⟨seq, -, h⟩ := bind_eq_ok_iff.mp h
  obtain ⟨ack, -, h⟩ := bind_eq_ok_iff.mp h
  obtain ⟨flags, -, h⟩ := bind_eq_ok_iff.mp h
  obtain ⟨window, -, h⟩ := bind_eq_ok_iff.mp h
  obtain ⟨checksum, -, h⟩ := bind_eq_ok_iff.mp h
  obtain ⟨urgent, -, h⟩ := bind_eq_ok_iff.mp h
  cases h
  exact hdst

/-- A segment is given to the first socket that `isTarget` finds. -/
theorem pollFrame_incoming (sockets : List TcpSocket) (seg : Incoming) :
    pollFrame sockets seg.frame =
      match sockets.findIdx? (isTarget seg.srcIp seg.hdr.dstPort) with
      | none => .ok (sockets, [], false)
      | some id => do
        let (sock, sent) ← (← index sockets id).receive seg.hdr seg.payload
        return (sockets.set id sock, sent, true) := by
  obtain ⟨first, hfirst, hihl⟩ := seg.ihl_eq
  obtain ⟨hmin, hlong⟩ := seg.long
  have hheader : tcpHeaderLen = 20 := rfl
  have hslice : slice seg.frame.payload.1 seg.ihl seg.frame.payload.1.length =
      .ok (seg.frame.payload.1.drop seg.ihl) := by
    rw [slice_eq_ok (by omega) le_rfl, List.take_of_length_le (by rw [List.length_drop])]
  rw [pollFrame, if_neg (not_not.mpr seg.is_ip), if_neg (by omega), seg.is_tcp, ok_bind,
    if_neg (not_not.mpr rfl), hfirst, ok_bind]
  dsimp only
  rw [← hihl, if_neg (by omega), hslice, ok_bind, dstPort_of_parse seg.header_eq, ok_bind,
    seg.srcIp_eq, ok_bind]
  cases sockets.findIdx? (isTarget seg.srcIp seg.hdr.dstPort) with
  | none => rfl
  | some id =>
    dsimp only
    congr 1
    funext sock
    rw [TcpSocket.processIncoming, seg.header_eq, ok_bind]
    dsimp only
    rw [seg.payload_eq, ok_bind]

/-- Setting the socket at an index is isolated exactly when it changes nothing or the socket
listens or belongs to the connection of the segment. -/
theorem isolated_set_iff {seg : Incoming} {sockets : List TcpSocket} {i : Nat}
    {sock : TcpSocket} (sock' : TcpSocket) (hi : sockets[i]? = some sock)
    (htarget : isTarget seg.srcIp seg.hdr.dstPort sock = true) :
    Isolated seg sockets (sockets.set i sock') ↔
      sock.state = .listen ∨ sock.remotePort = seg.hdr.srcPort ∨ sock' = sock := by
  have hlt : i < sockets.length := (List.getElem?_eq_some_iff.mp hi).1
  simp only [isTarget, Bool.and_eq_true, decide_eq_true_eq] at htarget
  obtain ⟨⟨hport, hip⟩, -⟩ := htarget
  constructor
  · rintro ⟨j, hothers, hchanged⟩
    by_cases hj : i = j
    · subst hj
      obtain hsame | ⟨found, hfound, hwhy⟩ := hchanged
      · rw [List.getElem?_set_self hlt, hi] at hsame
        exact .inr (.inr (Option.some.inj hsame))
      · obtain rfl : sock = found := by simpa [hi] using hfound
        exact hwhy.imp_right fun h => .inl h.2.2
    · have hsame := hothers i hj
      rw [List.getElem?_set_self hlt, hi] at hsame
      exact .inr (.inr (Option.some.inj hsame))
  · intro h
    refine ⟨i, fun j hj => List.getElem?_set_ne (Ne.symm hj), ?_⟩
    obtain hlisten | hremote | rfl := h
    · exact .inr ⟨sock, hi, .inl hlisten⟩
    · exact .inr ⟨sock, hi, .inr ⟨hport, hip, hremote⟩⟩
    · exact .inl (by rw [List.getElem?_set_self hlt, hi])

/-- Polling a segment returns and changes only a socket of the segment's own connection, exactly
when the first open socket with its destination port and source address is one of the connection,
listens, or ignores the segment. -/
theorem isolated_iff (table : Table) (seg : Incoming) :
    (∃ after sent dispatched,
        pollIncoming table.sockets [seg.frame] = .ok (after, sent, dispatched) ∧
        Isolated seg table.sockets after) ↔
      Matched table.sockets seg := by
  rw [pollIncoming, List.foldlM_cons]
  dsimp only
  rw [pollFrame_incoming]
  cases hfind : table.sockets.findIdx? (isTarget seg.srcIp seg.hdr.dstPort) with
  | none =>
    -- no socket is open for the segment, and the table stays as it is
    refine iff_of_true ⟨_, _, _, rfl, 0, fun _ _ => rfl, .inl rfl⟩ ?_
    intro sock hsock
    rw [List.findIdx?_eq_none_iff] at hfind
    have htarget := hfind sock (List.mem_of_find?_eq_some hsock)
    rw [List.find?_some hsock] at htarget
    cases htarget
  | some id =>
    obtain ⟨sock, hid, hfirst, htarget⟩ := find?_of_findIdx? hfind
    have hopen : sock.state ≠ .closed := by
      simp only [isTarget, Bool.and_eq_true, decide_eq_true_eq] at htarget
      exact htarget.2
    obtain ⟨payload, hpayload, hlen⟩ := segmentPayload_returns (seg.frame.payload.1.drop seg.ihl)
    obtain rfl : seg.payload = payload := by simpa [seg.payload_eq] using hpayload
    have hbuffer := table.buffers sock (List.mem_of_getElem? hid)
    have hframe := seg.frame.payload.2
    rw [List.length_drop] at hlen
    obtain ⟨sock', sent, hreceive, hignores⟩ := receive_outcome seg.hdr hopen
      (by omega : sock.recvBuf.length + seg.payload.length < 2 ^ 64)
    dsimp only
    rw [index_eq_ok_iff.mpr hid, ok_bind, hreceive, ok_bind]
    have hiso := isolated_set_iff sock' hid htarget
    constructor
    · rintro ⟨after, sent', dispatched, hafter, hisolated⟩
      cases hafter
      intro found hfound
      obtain rfl : sock = found := by simpa [hfirst] using hfound
      rw [hiso, hignores] at hisolated
      exact hisolated
    · intro hmatched
      refine ⟨_, _, _, rfl, ?_⟩
      rw [hiso, hignores]
      exact hmatched sock hfirst

/-- Two connections from one host to one local port. -/
def twoConnections : List TcpSocket :=
  [.registerEstablished ⟨10, 0, 2, 15⟩ 80 ⟨10, 0, 2, 2⟩ 1000 1 500,
    .registerEstablished ⟨10, 0, 2, 15⟩ 80 ⟨10, 0, 2, 2⟩ 2000 1 900]

/-- The FIN of the second connection, from port 2000. -/
def finOfSecond : Frame where
  ethertype := ethTypeIp
  payload := ⟨[0x45, 0, 0, 40, 0, 0, 0, 0, 64, 6, 0, 0, 10, 0, 2, 2, 10, 0, 2, 15,
    7, 208, 0, 80, 0, 0, 3, 132, 0, 0, 0, 1, 0x50, 0x11, 32, 0, 0, 0, 0, 0], by decide⟩

/-- The FIN of the second connection closes the first one. -/
theorem fin_closes_other_connection :
    (pollIncoming twoConnections [finOfSecond]).map
        (fun r => r.1.map fun sock => (sock.remotePort, sock.state)) =
      .ok [(1000, .closeWait), (2000, .established)] := by
  decide +kernel

end MerlionKernel.Tcp
