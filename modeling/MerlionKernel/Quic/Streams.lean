import MerlionKernel.Rust.Bytes
import MerlionKernel.Rust.Find
import MerlionKernel.Theory.Run

/-!
# Streams of a QUIC connection

Streams, flow control and the congestion window of `quic.rs`, for the sending side. The time is an
argument of what reads it; the counters for statistics and the receiving side are left out.

A unidirectional stream is stored under another number than the one its creator is given, and the
data of all streams together is not compared with the limit of the connection. Apart from this the
calls keep to what the limits promise.
-/

namespace MerlionKernel.Quic

open Rust Theory

/-- `DEFAULT_MAX_DATA`. -/
def defaultMaxData : Nat := 1048576

/-- `DEFAULT_MAX_STREAM_DATA`. -/
def defaultMaxStreamData : Nat := 262144

/-- `INITIAL_CWND`. -/
def initialCwnd : Nat := 14720

/-- `MIN_CWND`. -/
def minCwnd : Nat := 2940

/-- The states of a stream. -/
inductive StreamState
  | idle
  | open
  | halfClosedLocal
  | halfClosedRemote
  | closed
  deriving DecidableEq

/-- A stream, as far as it sends. -/
structure QuicStream where
  id : Nat
  state : StreamState
  sendBuf : Bytes
  sendOffset : Nat
  maxSend : Nat

def QuicStream.new (id : Nat) : QuicStream where
  id := id
  state := .idle
  sendBuf := []
  sendOffset := 0
  maxSend := defaultMaxStreamData

/-- A connection, as far as it sends. -/
structure QuicConnection where
  streams : List QuicStream
  nextStreamId : Nat
  maxData : Nat
  sentData : Nat
  congestionWindow : Nat
  bytesInFlight : Nat
  lastActivity : Nat
  largestAcked : Nat
  ptoCount : Nat

namespace QuicConnection

def new (tick : Nat) : QuicConnection where
  streams := []
  nextStreamId := 0
  maxData := defaultMaxData
  sentData := 0
  congestionWindow := initialCwnd
  bytesInFlight := 0
  lastActivity := tick
  largestAcked := 0
  ptoCount := 0

/-- Create a stream, and return its number. -/
def createStream (c : QuicConnection) (bidi : Bool) : Exec (Nat × QuicConnection) := do
  let id := c.nextStreamId
  let nextStreamId ← u64 (c.nextStreamId + if bidi then 4 else 4)
  let stream := { QuicStream.new (id ||| if !bidi then 0x02 else 0x00) with state := .open }
  return (id, { c with nextStreamId, streams := c.streams ++ [stream] })

/-- Send data on a stream. -/
def send (c : QuicConnection) (streamId : Nat) (data : Bytes) :
    Exec (Except String Unit × QuicConnection) :=
  match c.streams.find? (·.id = streamId) with
  | none => return (.error "stream not found", c)
  | some stream =>
    if stream.state = .closed ∨ stream.state = .halfClosedLocal then
      return (.error "stream not writable", c)
    else
      let allowed := stream.maxSend - stream.sendOffset
      if data.length > allowed then return (.error "flow control limit exceeded", c)
      else do
        let sendOffset ← u64 (stream.sendOffset + data.length)
        let sentData ← u64 (c.sentData + data.length)
        let extend (s : QuicStream) := { s with sendBuf := s.sendBuf ++ data, sendOffset }
        return (.ok (), { c with
          sentData, streams := modifyFirst (·.id = streamId) extend c.streams })

/-- The growth of the window with an acknowledgement. -/
def increment (congestionWindow : Nat) : Nat :=
  if congestionWindow < 65536 then 1460 else 1460 * 1460 / max congestionWindow 1

/-- Process an acknowledgement; the delay is not used. -/
def onAck (c : QuicConnection) (largest _delay ticks : Nat) : QuicConnection :=
  { c with
    largestAcked := if largest > c.largestAcked then largest else c.largestAcked
    ptoCount := 0
    lastActivity := ticks
    congestionWindow :=
      if c.bytesInFlight < c.congestionWindow then
        min (c.congestionWindow + increment c.congestionWindow) (2 ^ 64 - 1)
      else c.congestionWindow }

/-- The window shrinks with a loss. -/
def onLoss (c : QuicConnection) : Exec QuicConnection := do
  let scaled ← u64 (c.congestionWindow * 7)
  return { c with congestionWindow := max (scaled / 10) minCwnd }

end QuicConnection

/-! ### Sequences of calls -/

/-- A call on a connection. -/
inductive Call
  | createStream (bidi : Bool)
  | send (streamId : Nat) (data : Bytes)
  | onAck (largest delay ticks : Nat)
  | onLoss

/-- A connection, and the numbers that `create_stream` has returned. -/
structure Traced where
  conn : QuicConnection
  issued : List Nat

namespace Traced

/-- A new connection. -/
def new (tick : Nat) : Traced := ⟨.new tick, []⟩

def step (t : Traced) : Call → Exec Traced
  | .createStream bidi => do
    let (id, conn) ← t.conn.createStream bidi
    return ⟨conn, t.issued ++ [id]⟩
  | .send streamId data => do
    let (_, conn) ← t.conn.send streamId data
    return { t with conn }
  | .onAck largest delay ticks => return { t with conn := t.conn.onAck largest delay ticks }
  | .onLoss => do
    let conn ← t.conn.onLoss
    return { t with conn }

/-- No number is issued twice, and each one names a stream that takes whatever its limit leaves
room for; no stream and not the connection is beyond its limit, and the window is not below the
least one. -/
structure Promised (t : Traced) : Prop where
  nodup : t.issued.Nodup
  writable : ∀ id ∈ t.issued, ∃ s, t.conn.streams.find? (·.id = id) = some s ∧
    ∀ data : Bytes, s.sendOffset + data.length ≤ s.maxSend →
      ∃ conn, t.conn.send id data = .ok (.ok (), conn)
  offsets : ∀ s ∈ t.conn.streams, s.sendOffset ≤ s.maxSend
  total : t.conn.sentData ≤ t.conn.maxData
  window : minCwnd ≤ t.conn.congestionWindow

/-- Streams are created in both directions, with numbers to spare, and what the limit of a stream
lets through is within the limit of the connection. -/
def Careful (t : Traced) : Call → Prop
  | .createStream bidi => bidi = true ∧ t.conn.nextStreamId + 4 < 2 ^ 64
  | .send streamId data =>
    ∀ s, t.conn.streams.find? (·.id = streamId) = some s →
      s.sendOffset + data.length ≤ s.maxSend → t.conn.sentData + data.length ≤ t.conn.maxData
  | _ => True

/-! ### One call -/

/-- A stream that is open and within its limit. -/
structure Fresh (s : QuicStream) : Prop where
  isOpen : s.state = .open
  offset : s.sendOffset ≤ s.maxSend
  limit : s.maxSend = defaultMaxStreamData

/-- What holds as long as the calls are careful. -/
structure Inv (t : Traced) : Prop where
  ids : t.conn.streams.map (·.id) = t.issued
  nodup : t.issued.Nodup
  below : ∀ id ∈ t.issued, id < t.conn.nextStreamId
  even : t.conn.nextStreamId % 4 = 0
  fresh : ∀ s ∈ t.conn.streams, Fresh s
  total : t.conn.sentData ≤ t.conn.maxData
  limit : t.conn.maxData = defaultMaxData
  window : minCwnd ≤ t.conn.congestionWindow
  small : t.conn.congestionWindow ≤ 2131632

theorem inv_new (tick : Nat) : (new tick).Inv where
  ids := rfl
  nodup := List.nodup_nil
  below := fun id hid => absurd hid List.not_mem_nil
  even := rfl
  fresh := fun s hs => absurd hs List.not_mem_nil
  total := Nat.zero_le _
  limit := rfl
  window := show minCwnd ≤ initialCwnd by decide
  small := show initialCwnd ≤ 2131632 by decide

/-- What a stream has room for is accepted. -/
theorem send_eq_ok {c : QuicConnection} {id : Nat} {s : QuicStream} {data : Bytes}
    (hfind : c.streams.find? (·.id = id) = some s) (hs : Fresh s)
    (hroom : s.sendOffset + data.length ≤ s.maxSend) (htotal : c.sentData ≤ defaultMaxData) :
    c.send id data = .ok (.ok (), { c with
      sentData := c.sentData + data.length
      streams := modifyFirst (·.id = id) (fun s' => { s' with
        sendBuf := s'.sendBuf ++ data
        sendOffset := s.sendOffset + data.length }) c.streams }) := by
  have hlimit := hs.limit
  unfold defaultMaxStreamData at hlimit
  unfold defaultMaxData at htotal
  rw [QuicConnection.send, hfind]
  dsimp only
  rw [if_neg (by rw [hs.isOpen]; decide), if_neg (by omega), u64_eq_ok (by omega), ok_bind,
    u64_eq_ok (by omega)]
  rfl

/-- Anything else is refused. -/
theorem send_refused {c : QuicConnection} {id : Nat} {data : Bytes}
    (hfresh : ∀ s ∈ c.streams, Fresh s)
    (h : ∀ s, c.streams.find? (·.id = id) = some s → ¬ s.sendOffset + data.length ≤ s.maxSend) :
    ∃ e, c.send id data = .ok (.error e, c) := by
  unfold QuicConnection.send
  cases hfind : c.streams.find? (·.id = id) with
  | none => exact ⟨_, rfl⟩
  | some s =>
    have hs := hfresh s (List.mem_of_find?_eq_some hfind)
    have hoffset := hs.offset
    have hroom := h s hfind
    dsimp only
    rw [if_neg (by rw [hs.isOpen]; decide), if_pos (by omega)]
    exact ⟨_, rfl⟩

theorem Inv.promised {t : Traced} (h : t.Inv) : t.Promised where
  nodup := h.nodup
  writable := by
    intro id hid
    rw [← h.ids] at hid
    obtain ⟨s, hs, hkey⟩ := List.mem_map.mp hid
    obtain ⟨s', hfind⟩ : ∃ s', t.conn.streams.find? (·.id = id) = some s' :=
      Option.isSome_iff_exists.mp (List.find?_isSome.mpr ⟨s, hs, by simpa using hkey⟩)
    refine ⟨s', hfind, fun data hroom => ?_⟩
    exact ⟨_, send_eq_ok hfind (h.fresh s' (List.mem_of_find?_eq_some hfind)) hroom
      (h.limit ▸ h.total)⟩
  offsets := fun s hs => (h.fresh s hs).offset
  total := h.total
  window := h.window

theorem Inv.createStream {t : Traced} (h : t.Inv) (hroom : t.conn.nextStreamId + 4 < 2 ^ 64) :
    Returns (t.step (.createStream true)) Inv := by
  rw [step, QuicConnection.createStream, if_pos rfl, u64_eq_ok hroom]
  have hnew : t.conn.nextStreamId ∉ t.issued := fun hmem => Nat.lt_irrefl _ (h.below _ hmem)
  refine .ok ⟨?_, ?_, ?_, ?_, ?_, h.total, h.limit, h.window, h.small⟩
  · dsimp only
    rw [List.map_append, h.ids]
    simp [QuicStream.new]
  · exact List.nodup_append.mpr ⟨h.nodup, List.nodup_singleton _, fun a ha b hb heq =>
      hnew (List.mem_singleton.mp hb ▸ heq ▸ ha)⟩
  · intro id hid
    dsimp only
    rcases List.mem_append.mp hid with hid | hid
    · exact Nat.lt_add_right 4 (h.below id hid)
    · rw [List.mem_singleton.mp hid]
      exact Nat.lt_add_of_pos_right (by decide)
  · dsimp only
    have heven := h.even
    omega
  · intro s hs
    rcases List.mem_append.mp hs with hs | hs
    · exact h.fresh s hs
    · rw [List.mem_singleton.mp hs]
      exact ⟨rfl, Nat.zero_le _, rfl⟩

theorem Inv.send {t : Traced} (h : t.Inv) {id : Nat} {data : Bytes}
    (hguard : t.Careful (.send id data)) : Returns (t.step (.send id data)) Inv := by
  rw [step]
  by_cases haccept : ∃ s, t.conn.streams.find? (·.id = id) = some s ∧
      s.sendOffset + data.length ≤ s.maxSend
  · obtain ⟨s, hfind, hroom⟩ := haccept
    have hs := h.fresh s (List.mem_of_find?_eq_some hfind)
    rw [send_eq_ok hfind hs hroom (h.limit ▸ h.total)]
    refine .ok ⟨?_, h.nodup, h.below, h.even, ?_, hguard s hfind hroom, h.limit, h.window, h.small⟩
    · rw [← h.ids]
      exact map_modifyFirst (fun s' => by dsimp only) t.conn.streams
    · refine forall_mem_modifyFirst h.fresh fun s' hs' => ?_
      have hs'' := h.fresh s' hs'
      exact ⟨hs''.isOpen, by rw [hs''.limit, ← hs.limit]; exact hroom, hs''.limit⟩
  · push Not at haccept
    obtain ⟨e, hrefused⟩ := send_refused h.fresh fun s hfind => Nat.not_le_of_lt (haccept s hfind)
    rw [hrefused]
    exact .ok h

/-- The window stops growing where the square of a packet is divided by more than itself. -/
theorem increment_le {w : Nat} (h : w ≤ 2131632) : w + QuicConnection.increment w ≤ 2131632 := by
  unfold QuicConnection.increment
  split_ifs with hslow
  · omega
  · have hle : 1460 * 1460 / max w 1 ≤ 1460 * 1460 / 65536 :=
      Nat.div_le_div_left (by omega) (by decide)
    -- beyond the square of a packet the quotient is zero
    by_cases hlarge : 1460 * 1460 < max w 1
    · rw [Nat.div_eq_of_lt hlarge]
      omega
    · omega

/-- Setting the second bit of a multiple of four gives another number. -/
theorem or_two_ne {n : Nat} (h : n % 4 = 0) : n ||| 2 ≠ n := by
  intro heq
  have hset : n.testBit 1 = true := by
    rw [← heq, Nat.testBit_or, show Nat.testBit 2 1 = true from rfl, Bool.or_true]
  rw [Nat.testBit_succ, Nat.testBit_zero, decide_eq_true_eq] at hset
  omega

theorem Inv.onAck {t : Traced} (h : t.Inv) (largest delay ticks : Nat) :
    Returns (t.step (.onAck largest delay ticks)) Inv := by
  have hwindow := h.window
  have hsmall := h.small
  refine .ok ⟨h.ids, h.nodup, h.below, h.even, h.fresh, h.total, h.limit, ?_, ?_⟩
  · dsimp only [QuicConnection.onAck]
    split_ifs <;> omega
  · have hgrowth := increment_le hsmall
    dsimp only [QuicConnection.onAck]
    split_ifs <;> omega

theorem Inv.onLoss {t : Traced} (h : t.Inv) : Returns (t.step .onLoss) Inv := by
  have hsmall := h.small
  rw [step, QuicConnection.onLoss, u64_eq_ok (by omega)]
  refine .ok ⟨h.ids, h.nodup, h.below, h.even, h.fresh, h.total, h.limit, ?_, ?_⟩
  · dsimp only
    omega
  · dsimp only [minCwnd]
    omega

theorem Inv.step_returns {t : Traced} (h : t.Inv) (call : Call) (hguard : t.Careful call) :
    Returns (t.step call) Inv := by
  cases call with
  | createStream bidi =>
    obtain ⟨rfl, hroom⟩ := hguard
    exact h.createStream hroom
  | send id data => exact h.send hguard
  | onAck largest delay ticks => exact h.onAck largest delay ticks
  | onLoss => exact h.onLoss

/-- A call that is not careful stops or breaks a promise. -/
theorem Inv.step_breaks {t t' : Traced} {call : Call} (h : t.Inv) (hmiss : ¬ t.Careful call)
    (hstep : t.step call = .ok t') : ¬ t'.Promised := by
  intro hpromised
  cases call with
  | createStream bidi =>
    cases bidi with
    | true =>
      obtain ⟨⟨id, conn⟩, hcreate, -⟩ := bind_eq_ok_iff.mp hstep
      obtain ⟨next, hnext, -⟩ := bind_eq_ok_iff.mp hcreate
      exact hmiss ⟨rfl, (u64_eq_ok_iff.mp hnext).1⟩
    | false =>
      -- the number that is returned names no stream
      obtain ⟨⟨id, conn⟩, hcreate, hstep⟩ := bind_eq_ok_iff.mp hstep
      obtain ⟨next, hnext, hcreate⟩ := bind_eq_ok_iff.mp hcreate
      cases hcreate
      cases hstep
      obtain ⟨s, hfind, -⟩ := hpromised.writable t.conn.nextStreamId
        (List.mem_append_right _ List.mem_cons_self)
      have hid : s.id = t.conn.nextStreamId := by simpa using List.find?_some hfind
      rcases List.mem_append.mp (List.mem_of_find?_eq_some hfind) with hs | hs
      · have hlt := h.below s.id (h.ids ▸ List.mem_map_of_mem hs)
        omega
      · rw [List.mem_singleton.mp hs] at hid
        exact or_two_ne h.even hid
  | send id data =>
    simp only [Careful, not_forall] at hmiss
    obtain ⟨s, hfind, hroom, hover⟩ := hmiss
    rw [step, send_eq_ok hfind (h.fresh s (List.mem_of_find?_eq_some hfind)) hroom
      (h.limit ▸ h.total)] at hstep
    cases hstep
    -- the send itself succeeds: nothing compares the sum with the limit of the connection
    exact hover hpromised.total
  | onAck largest delay ticks => exact hmiss trivial
  | onLoss => exact hmiss trivial

/-- Through any sequence of calls the connection keeps its promises exactly as long as the calls are
careful. -/
theorem promised_iff_careful (tick : Nat) (calls : List Call) :
    (∃ t, run step (new tick) calls = .ok t) ∧ Always step Promised (new tick) calls ↔
      Guarded step Careful (new tick) calls :=
  returns_and_always_iff_guarded Inv (fun _ h => h.promised) (fun _ call h => h.step_returns call)
    (fun _ _ _ h hmiss hstep => h.step_breaks hmiss hstep) (inv_new tick) calls

/-- The number of a unidirectional stream names no stream. -/
theorem unidirectional_not_found :
    ∃ c, (QuicConnection.new 0).createStream false = .ok (0, c) ∧
      c.send 0 [1] = .ok (.error "stream not found", c) :=
  ⟨_, rfl, rfl⟩

end Traced

end MerlionKernel.Quic
