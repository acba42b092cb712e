import Mathlib.Data.List.Infix
import MerlionKernel.Tcp.Socket
import MerlionKernel.Theory.Run

/-!
# The receive stream

A peer sends one stream of bytes. Pieces of it reach an established socket as segments, of any
size, in any order, some of them not at all and some more than once, and the application reads
what has accumulated at any time.

What has been read and what is waiting to be read is exactly what has been acknowledged, as long as
an in-sequence segment finds room in the buffer and is the piece that its sequence number stands
for, and a FIN comes after everything else. The socket does not see to any of the three: it
acknowledges data that it drops for want of room, it acknowledges the data before and in a FIN
without storing it, and sequence numbers repeat after 2^32 bytes.
-/

namespace MerlionKernel.Tcp

open Rust Net Theory

/-! ### The system -/

/-- A segment that carries a piece of a stream whose first byte has the sequence number `base`. A
FIN stands at the end of the stream. -/
structure Segment (stream : Bytes) (base : UInt32) where
  data : Buffer
  hdr : TcpHeader
  payload : Bytes
  offset : Nat
  header_eq : parseTcpHeader data.1 = .ok (some hdr)
  payload_eq : segmentPayload data.1 = .ok payload
  seq_eq : hdr.seq = base + UInt32.ofNat offset
  cut : payload <+: stream.drop offset
  inside : offset ≤ stream.length
  not_rst : headerFlags hdr &&& tcpRst = 0
  fin_last : headerFlags hdr &&& tcpFin ≠ 0 → offset + payload.length = stream.length

/-- What happens at the socket. -/
inductive Event (stream : Bytes) (base : UInt32)
  | segment (seg : Segment stream base)
  | recv

/-- The socket, the bytes that `recv` has returned, and how much of the stream the acknowledgements
cover that the socket has sent. -/
structure System where
  sock : TcpSocket
  received : Bytes
  acked : Nat

/-- The part of the stream that is covered after some acknowledgements: each of them is ahead of
the one before. -/
def covered (lastAck : UInt32) (acked : Nat) : List Sent → Nat
  | [] => acked
  | seg :: rest => covered seg.ack (acked + (seg.ack - lastAck).toNat) rest

section Stream

variable {stream : Bytes} {base : UInt32}

/-- One event. -/
def step (s : System) : Event stream base → Exec System
  | .segment seg => do
    let (sock, sent) ← s.sock.processIncoming seg.data.1
    return { s with sock, acked := covered s.sock.ackNum s.acked sent }
  | .recv =>
    match s.sock.recv with
    | (.ok data, sock) => return { s with sock, received := s.received ++ data }
    | (.error _, sock) => return { s with sock }

/-- A connection that has just been established. -/
def System.start (localIp : Ipv4Addr) (localPort : UInt16) (remoteIp : Ipv4Addr)
    (remotePort : UInt16) (seqNum base : UInt32) : System where
  sock := .registerEstablished localIp localPort remoteIp remotePort seqNum base
  received := []
  acked := 0

/-- What has been read and would be read next is a prefix of the stream, and what has been
acknowledged is in it. -/
def Faithful (stream : Bytes) (s : System) : Prop :=
  s.received ++ s.sock.recvBuf <+: stream ∧
    stream.take s.acked <+: s.received ++ s.sock.recvBuf

/-- The segment carries a FIN. -/
def Segment.IsFin (seg : Segment stream base) : Prop := headerFlags seg.hdr &&& tcpFin ≠ 0

/-- The segment carries data with the sequence number that the socket expects. -/
def Segment.InSequence (seg : Segment stream base) (s : System) : Prop :=
  ¬ seg.IsFin ∧ (seg.payload ≠ [] ∧ headerFlags seg.hdr &&& tcpAck ≠ 0) ∧
    seg.hdr.seq = s.sock.ackNum

/-- There is room for the data in the buffer. -/
def Segment.Fits (seg : Segment stream base) (s : System) : Prop :=
  s.sock.recvBuf.length + seg.payload.length ≤ recvBufCap

/-- What has to hold of an event in `Established`. A FIN comes when the whole stream is
acknowledged; data in sequence fits into the buffer and continues what is acknowledged. (Where
nothing of the stream is left, or a length is a multiple of 2^32, nothing more is acknowledged.) -/
def Careful (s : System) : Event stream base → Prop
  | .recv => True
  | .segment seg => s.sock.state = .established →
    (seg.IsFin → stream.length ≤ s.acked ∨
      seg.hdr.seq + UInt32.ofNat seg.payload.length + 1 = s.sock.ackNum) ∧
    (seg.InSequence s → seg.Fits s → seg.payload <+: stream.drop s.acked) ∧
    (seg.InSequence s → ¬ seg.Fits s → stream.length ≤ s.acked ∨
      UInt32.ofNat seg.payload.length = 0)

/-! ### One event -/

/-- What holds along a run of careful events. -/
structure Sound (stream : Bytes) (base : UInt32) (s : System) : Prop where
  content : s.received ++ s.sock.recvBuf = stream.take s.acked
  ackNum : s.sock.ackNum = base + UInt32.ofNat s.acked
  state : s.sock.state = .established ∨ s.sock.state = .closeWait
  room : s.sock.recvBuf.length ≤ recvBufCap

theorem Sound.faithful {s : System} (h : Sound stream base s) : Faithful stream s := by
  rw [Faithful, h.content]
  exact ⟨List.take_prefix _ _, List.prefix_rfl⟩

/-- The number of an acknowledgement stands for the part of the stream that it covers. -/
theorem ackNum_covered {acked : Nat} {old new : UInt32} (h : old = base + UInt32.ofNat acked) :
    new = base + UInt32.ofNat (acked + (new - old).toNat) := by
  rw [UInt32.ofNat_add, UInt32.ofNat_toNat, h, ← UInt32.add_assoc, UInt32.add_comm,
    UInt32.sub_add_cancel]

/-- More is covered without being there, unless the stream is at its end or nothing more is
covered. -/
theorem take_covered_prefix_iff {acked more : Nat} :
    stream.take (acked + more) <+: stream.take acked ↔ stream.length ≤ acked ∨ more = 0 := by
  constructor
  · intro h
    have hlen := h.length_le
    rw [List.length_take, List.length_take] at hlen
    omega
  · rintro (hend | rfl)
    · rw [List.take_of_length_le (by omega), List.take_of_length_le hend]
    · exact List.prefix_rfl

theorem toNat_sub_eq_zero_iff {a b : UInt32} : (a - b).toNat = 0 ↔ a = b := by
  rw [← UInt32.toNat_zero, UInt32.toNat_inj, UInt32.sub_eq_iff_eq_add, UInt32.zero_add]

/-- Data at the end of what is acknowledged is the next piece of the stream. -/
theorem take_append_prefix_iff {acked : Nat} {payload : Bytes} :
    stream.take acked ++ payload <+: stream ↔ payload <+: stream.drop acked := by
  conv_lhs => rhs; rw [← List.take_append_drop acked stream]
  exact List.prefix_append_right_inj _

/-- What a segment does in a sound state. -/
inductive Effect (s : System) (seg : Segment stream base) : System → Prop
  | kept {s' : System}
      (hquiet : s.sock.state = .established → ¬ seg.IsFin ∧ ¬ seg.InSequence s)
      (hreceived : s'.received = s.received)
      (hbuf : s'.sock.recvBuf = s.sock.recvBuf) (hstate' : s'.sock.state = s.sock.state)
      (hack : s'.sock.ackNum = s.sock.ackNum) (hacked : s'.acked = s.acked) : Effect s seg s'
  | fin {s' : System} (hstate : s.sock.state = .established) (hfin : seg.IsFin)
      (hreceived : s'.received = s.received) (hbuf : s'.sock.recvBuf = s.sock.recvBuf)
      (hstate' : s'.sock.state = .closeWait)
      (hack : s'.sock.ackNum = seg.hdr.seq + UInt32.ofNat seg.payload.length + 1)
      (hacked : s'.acked = s.acked + (s'.sock.ackNum - s.sock.ackNum).toNat) : Effect s seg s'
  | data {s' : System} (hstate : s.sock.state = .established) (hseq : seg.InSequence s)
      (hreceived : s'.received = s.received) (hstate' : s'.sock.state = .established)
      (hack : s'.sock.ackNum = s.sock.ackNum + UInt32.ofNat seg.payload.length)
      (hacked : s'.acked = s.acked + (s'.sock.ackNum - s.sock.ackNum).toNat)
      (hfits : seg.Fits s → s'.sock.recvBuf = s.sock.recvBuf ++ seg.payload)
      (hfull : ¬ seg.Fits s → s'.sock.recvBuf = s.sock.recvBuf) : Effect s seg s'

theorem processIncoming_eq (sock : TcpSocket) (seg : Segment stream base) :
    sock.processIncoming seg.data.1 =
      if sock.state = .established then sock.receiveEstablished seg.hdr seg.payload
      else sock.receive seg.hdr seg.payload := by
  rw [TcpSocket.processIncoming, seg.header_eq, ok_bind]
  dsimp only
  rw [seg.payload_eq, ok_bind]
  split_ifs with hstate
  · rw [TcpSocket.receive, if_neg (not_not.mpr seg.not_rst), hstate]
  · rfl

theorem step_segment {s : System} (h : Sound stream base s) (seg : Segment stream base) :
    Returns (step s (.segment seg)) (Effect s seg) := by
  rw [step, processIncoming_eq]
  obtain hstate | hstate := h.state
  · rw [if_pos hstate, TcpSocket.receiveEstablished]
    by_cases hfin : headerFlags seg.hdr &&& tcpFin ≠ 0
    · rw [if_pos hfin]
      exact .ok (.fin hstate hfin rfl rfl rfl rfl rfl)
    rw [if_neg hfin]
    by_cases hdata : seg.payload ≠ [] ∧ headerFlags seg.hdr &&& tcpAck ≠ 0
    · rw [if_pos hdata]
      by_cases hseq : seg.hdr.seq = s.sock.ackNum
      · have hroom := h.room
        obtain ⟨payload, hpayload, hlen⟩ := segmentPayload_returns seg.data.1
        obtain rfl : seg.payload = payload := by simpa [seg.payload_eq] using hpayload
        have hbuffer := seg.data.2
        have hcap : recvBufCap = 65536 := rfl
        rw [if_pos hseq, u64_eq_ok (by omega), ok_bind]
        refine .ok (.data hstate ⟨hfin, hdata, hseq⟩ rfl rfl rfl rfl ?_ ?_)
        · intro hfits
          exact if_pos hfits
        · intro hfull
          exact if_neg hfull
      · -- out of sequence: the last acknowledgement is sent again
        rw [if_neg hseq]
        refine .ok (.kept (fun _ => ⟨hfin, fun hin => hseq hin.2.2⟩) rfl rfl hstate.symm rfl ?_)
        exact congrArg (s.acked + ·) (toNat_sub_eq_zero_iff.mpr rfl)
    · rw [if_neg hdata]
      exact .ok (.kept (fun _ => ⟨hfin, fun hin => hdata hin.2.1⟩) rfl rfl rfl rfl rfl)
  · rw [if_neg (by rw [hstate]; decide), TcpSocket.receive, if_neg (not_not.mpr seg.not_rst),
      hstate]
    refine .ok (.kept (fun hopen => ?_) rfl rfl rfl rfl rfl)
    rw [hstate] at hopen
    cases hopen

/-- A careful segment leaves what is stored equal to what is acknowledged. -/
theorem Sound.segment {s s' : System} {seg : Segment stream base} (h : Sound stream base s)
    (hcareful : Careful s (.segment seg)) (heffect : Effect s seg s') : Sound stream base s' := by
  cases heffect with
  | kept _ hreceived hbuf hstate' hack hacked =>
    exact ⟨by rw [hreceived, hbuf, hacked, h.content], by rw [hack, hacked, h.ackNum],
      by rw [hstate']; exact h.state, by rw [hbuf]; exact h.room⟩
  | fin hstate hfin hreceived hbuf hstate' hack hacked =>
    refine ⟨?_, ?_, .inr hstate', by rw [hbuf]; exact h.room⟩
    · rw [hreceived, hbuf, h.content, hacked]
      obtain hend | hsame := (hcareful hstate).1 hfin
      · rw [List.take_of_length_le hend, List.take_of_length_le (by omega)]
      · rw [toNat_sub_eq_zero_iff.mpr (hack.trans hsame), Nat.add_zero]
    · rw [hacked]
      exact ackNum_covered h.ackNum
  | data hstate hseq hreceived hstate' hack hacked hfits hfull =>
    have hnum : s'.sock.ackNum = base + UInt32.ofNat s'.acked := by
      rw [hacked]
      exact ackNum_covered h.ackNum
    have hmore : (s'.sock.ackNum - s.sock.ackNum) = UInt32.ofNat seg.payload.length := by
      rw [hack, UInt32.add_comm, UInt32.add_sub_cancel]
    rw [hmore] at hacked
    by_cases hroom : seg.Fits s
    · have hcap : seg.payload.length < 2 ^ 32 := by
        have hle : s.sock.recvBuf.length + seg.payload.length ≤ 65536 := hroom
        omega
      refine ⟨?_, hnum, .inl hstate', by rw [hfits hroom, List.length_append]; exact hroom⟩
      rw [hreceived, hfits hroom, ← List.append_assoc, h.content, hacked,
        UInt32.toNat_ofNat_of_lt' hcap, List.take_add]
      congr 1
      exact List.prefix_iff_eq_take.mp ((hcareful hstate).2.1 hseq hroom)
    · refine ⟨?_, hnum, .inl hstate', by rw [hfull hroom]; exact h.room⟩
      rw [hreceived, hfull hroom, h.content, hacked]
      obtain hend | hzero := (hcareful hstate).2.2 hseq hroom
      · rw [List.take_of_length_le hend, List.take_of_length_le (by omega)]
      · rw [hzero]
        rfl

theorem Sound.recv {s : System} (h : Sound stream base s) :
    Returns (step s (.recv : Event stream base)) (Sound stream base) := by
  have hopen : s.sock.state ≠ .closed := by
    rcases h.state with hstate | hstate <;> rw [hstate] <;> decide
  rw [step, TcpSocket.recv, if_neg hopen]
  refine .ok ⟨?_, h.ackNum, h.state, Nat.zero_le _⟩
  dsimp only
  rw [List.append_nil]
  exact h.content

/-- A segment that is not careful makes the socket store a wrong byte or acknowledge a missing
one. -/
theorem not_faithful_of_not_careful {s s' : System} {seg : Segment stream base}
    (h : Sound stream base s) (hcareful : ¬ Careful s (.segment seg))
    (heffect : Effect s seg s') : ¬ Faithful stream s' := by
  rintro ⟨hstored, hcovered⟩
  apply hcareful
  intro hstate
  cases heffect with
  | kept hquiet =>
    obtain ⟨hfin, hseq⟩ := hquiet hstate
    exact ⟨fun h => absurd h hfin, fun h => absurd h hseq, fun h => absurd h hseq⟩
  | fin _ hfin hreceived hbuf hstate' hack hacked =>
    refine ⟨fun _ => ?_, fun hseq => absurd hfin hseq.1, fun hseq => absurd hfin hseq.1⟩
    rw [hreceived, hbuf, h.content, hacked, take_covered_prefix_iff, toNat_sub_eq_zero_iff,
      hack] at hcovered
    exact hcovered
  | data _ hseq hreceived hstate' hack hacked hfits hfull =>
    refine ⟨fun hfin => absurd hfin hseq.1, fun _ hroom => ?_, fun _ hroom => ?_⟩
    · rw [hreceived, hfits hroom, ← List.append_assoc, h.content,
        take_append_prefix_iff] at hstored
      exact hstored
    · rw [hreceived, hfull hroom, h.content, hacked, take_covered_prefix_iff, hack,
        UInt32.add_comm, UInt32.add_sub_cancel] at hcovered
      exact hcovered.imp_right fun hzero => UInt32.toNat_inj.mp hzero

end Stream

/-! ### Runs -/

theorem sound_start (stream : Bytes) (localIp : Ipv4Addr) (localPort : UInt16)
    (remoteIp : Ipv4Addr) (remotePort : UInt16) (seqNum base : UInt32) :
    Sound stream base
      (System.start localIp localPort remoteIp remotePort seqNum base) where
  content := rfl
  ackNum := (UInt32.add_zero base).symm
  state := .inl rfl
  room := Nat.zero_le _

/-- At an established socket, the runs that return and in which what is read is the stream, with
no acknowledged byte missing, are exactly those of careful segments. -/
theorem faithful_iff (stream : Bytes) (localIp : Ipv4Addr) (localPort : UInt16)
    (remoteIp : Ipv4Addr) (remotePort : UInt16) (seqNum base : UInt32)
    (events : List (Event stream base)) :
    (∃ s, run step (System.start localIp localPort remoteIp remotePort seqNum base) events =
        .ok s) ∧
        Always step (Faithful stream)
          (System.start localIp localPort remoteIp remotePort seqNum base) events ↔
      Guarded step Careful
        (System.start localIp localPort remoteIp remotePort seqNum base) events := by
  apply returns_and_always_iff_guarded (Sound stream base) (fun _ h => h.faithful) _ _
    (sound_start ..)
  · intro s event h hcareful
    cases event with
    | segment seg => exact (step_segment h seg).mono fun s' heffect => h.segment hcareful heffect
    | recv => exact h.recv
  · intro s event s' h hcareful hstep
    cases event with
    | segment seg =>
      exact not_faithful_of_not_careful h hcareful ((step_segment h seg).elim hstep)
    | recv => exact absurd trivial hcareful

/-- The stream `hi`, in one segment with the FIN. -/
def finWithData : Segment [104, 105] 0 where
  data := ⟨[0, 80, 31, 144, 0, 0, 0, 0, 0, 0, 0, 1, 0x50, 0x11, 32, 0, 0, 0, 0, 0, 104, 105],
    by decide⟩
  hdr := ⟨80, 8080, 0, 1, 0x5011, 8192, 0, 0⟩
  payload := [104, 105]
  offset := 0
  header_eq := by decide +kernel
  payload_eq := by decide +kernel
  seq_eq := rfl
  cut := by decide
  inside := by decide
  not_rst := by decide
  fin_last := fun _ => rfl

/-- The socket acknowledges the two bytes and the FIN, and `recv` returns nothing. -/
theorem fin_data_acknowledged_and_dropped :
    (run step (System.start ⟨10, 0, 2, 15⟩ 8080 ⟨10, 0, 2, 2⟩ 80 0 0)
        [.segment finWithData, .recv]).map (fun s => (s.received, s.sock.recvBuf, s.acked)) =
      .ok ([], [], 3) ∧ ¬ List.take 3 [104, 105] <+: ([] : Bytes) := by
  decide +kernel

end MerlionKernel.Tcp
