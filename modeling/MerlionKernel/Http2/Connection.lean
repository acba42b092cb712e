import MerlionKernel.Rust.Bytes
import MerlionKernel.Rust.Fallible
import MerlionKernel.Rust.Find
import MerlionKernel.Theory.Run

/-!
# HTTP/2 connections

`H2Connection::process_frame` of `http2.rs`, with the parser of settings. The decoder of header
blocks is a parameter: what it makes of a block is stored and not looked at here. What only the
answering side uses is left out.

A connection is watched over a sequence of frames: a stream that was once closed must not be found
in another state later, no window may overflow, and settings that a frame does not list must stay.
-/

namespace MerlionKernel.Http2

open Rust Theory

/-! ### Settings -/

/-- A number of 32 bits as an `i32`. -/
def signed (n : Nat) : Int :=
  if n % 4294967296 < 2147483648 then n % 4294967296 else n % 4294967296 - 4294967296

theorem signed_bounds (n : Nat) : -2147483648 ≤ signed n ∧ signed n < 2147483648 := by
  unfold signed
  split_ifs <;> omega

/-- `n as i32`. -/
def asI32 (n : Nat) : I32 := ⟨signed n, signed_bounds n⟩

/-- `DEFAULT_INITIAL_WINDOW_SIZE`. -/
def defaultInitialWindowSize : I32 := asI32 65535

/-- The settings of a side. All but the window size are `u32`. -/
structure H2Settings where
  headerTableSize : Nat
  enablePush : Nat
  maxConcurrentStreams : Nat
  initialWindowSize : I32
  maxFrameSize : Nat
  maxHeaderListSize : Nat

namespace H2Settings

def defaultSettings : H2Settings where
  headerTableSize := 4096
  enablePush := 1
  maxConcurrentStreams := 100
  initialWindowSize := defaultInitialWindowSize
  maxFrameSize := 16384
  maxHeaderListSize := 0

/-- Set the parameter of a number; others are ignored. -/
def set (s : H2Settings) (id val : Nat) : H2Settings :=
  match id with
  | 1 => { s with headerTableSize := val }
  | 2 => { s with enablePush := val }
  | 3 => { s with maxConcurrentStreams := val }
  | 4 => { s with initialWindowSize := asI32 val }
  | 5 => { s with maxFrameSize := val }
  | 6 => { s with maxHeaderListSize := val }
  | _ => s

/-- The loop of the parser: entries of six bytes, a number and a value. -/
def parseFrom (s : H2Settings) : Bytes → H2Settings
  | a :: b :: c :: d :: e :: f :: rest =>
    parseFrom (s.set (fromBe [a, b]) (fromBe [c, d, e, f])) rest
  | _ => s

/-- Settings from the payload of a frame. -/
def parse (data : Bytes) : H2Settings := parseFrom defaultSettings data

/-- The value of the parameter of a number. -/
def get (s : H2Settings) : Nat → Option Int
  | 1 => some s.headerTableSize
  | 2 => some s.enablePush
  | 3 => some s.maxConcurrentStreams
  | 4 => some s.initialWindowSize.1
  | 5 => some s.maxFrameSize
  | 6 => some s.maxHeaderListSize
  | _ => none

/-- The numbers of the parameters that a payload lists. -/
def listed : Bytes → List Nat
  | a :: b :: _ :: _ :: _ :: _ :: rest => fromBe [a, b] :: listed rest
  | _ => []

theorem get_set_of_ne (s : H2Settings) {id id' : Nat} (val : Nat) (h : id' ≠ id) :
    (s.set id val).get id' = s.get id' := by
  unfold set
  split <;> first | rfl | (unfold get; split <;> first | rfl | exact absurd rfl h)

/-- A parameter that is not listed keeps the value that the parser begins with. -/
theorem get_parseFrom {data : Bytes} {id : Nat} (h : id ∉ listed data) (s : H2Settings) :
    (s.parseFrom data).get id = s.get id := by
  fun_induction parseFrom s data with
  | case1 s a b c d e f rest ih =>
    rw [listed, List.mem_cons, not_or] at h
    rw [ih h.2, get_set_of_ne s _ h.1]
  | case2 => rfl

end H2Settings

/-! ### Connections -/

/-- The types of frames. -/
inductive FrameType
  | data
  | headers
  | priority
  | rstStream
  | settings
  | pushPromise
  | ping
  | goAway
  | windowUpdate
  | continuation
  deriving DecidableEq

/-- A frame. -/
structure Frame where
  length : Nat
  frameType : FrameType
  flags : UInt8
  streamId : Nat
  payload : Bytes

def Frame.new (frameType : FrameType) (flags : UInt8) (streamId : Nat) (payload : Bytes) :
    Frame where
  length := payload.length % 4294967296
  frameType := frameType
  flags := flags
  streamId := streamId
  payload := payload

def flagEndStream : UInt8 := 0x01
def flagAck : UInt8 := 0x01

/-- The states of a stream. -/
inductive StreamState
  | idle
  | open
  | halfClosedLocal
  | halfClosedRemote
  | closed
  deriving DecidableEq

/-- A stream. -/
structure H2Stream where
  id : Nat
  state : StreamState
  recvWindow : I32
  sendWindow : I32
  headers : List (String × String)
  data : Bytes

def H2Stream.new (id : Nat) : H2Stream where
  id := id
  state := .open
  recvWindow := defaultInitialWindowSize
  sendWindow := defaultInitialWindowSize
  headers := []
  data := []

/-- `MAX_STREAMS`. -/
def maxStreams : Nat := 128

/-- A connection, as far as frames change it. -/
structure H2Connection where
  remoteSettings : H2Settings
  streams : List H2Stream
  connRecvWindow : I32
  connSendWindow : I32

namespace H2Connection

def new : H2Connection where
  remoteSettings := .defaultSettings
  streams := []
  connRecvWindow := defaultInitialWindowSize
  connSendWindow := defaultInitialWindowSize

/-- The streams with one of this number. In a full table room is made by dropping all closed
streams. -/
def getOrCreateStream (streams : List H2Stream) (streamId : Nat) : List H2Stream :=
  if streams.any (·.id = streamId) then streams
  else if streams.length ≥ maxStreams then
    streams.filter (·.state ≠ .closed) ++ [.new streamId]
  else streams ++ [.new streamId]

/-- The peer has sent the last frame of a stream. -/
def ended (f : Frame) (state : StreamState) : StreamState :=
  if f.flags &&& flagEndStream ≠ 0 then .halfClosedRemote else state

/-- The increment of a WINDOW_UPDATE frame. -/
def increment (a b c d : UInt8) : I32 := asI32 (fromBe [a &&& 0x7F, b, c, d])

/-- Enlarge a window for sending. -/
def updateWindow (conn : H2Connection) (streamId : Nat) (inc : I32) : Exec H2Connection :=
  if streamId = 0 then do
    return { conn with connSendWindow := ← I32.arith (conn.connSendWindow.1 + inc.1) }
  else
    match conn.streams.find? (·.id = streamId) with
    | none => return conn
    | some stream => do
      let sendWindow ← I32.arith (stream.sendWindow.1 + inc.1)
      return { conn with
        streams := modifyFirst (·.id = streamId) (fun s => { s with sendWindow }) conn.streams }

/-- Data for a stream; for a stream that is not there it is dropped. -/
def receiveData (conn : H2Connection) (f : Frame) : Exec H2Connection :=
  match conn.streams.find? (·.id = f.streamId) with
  | none => return conn
  | some stream => do
    let recvWindow ← I32.arith (stream.recvWindow.1 - (asI32 f.payload.length).1)
    let connRecvWindow ← I32.arith (conn.connRecvWindow.1 - (asI32 f.payload.length).1)
    let receive (s : H2Stream) :=
      { s with data := s.data ++ f.payload, recvWindow, state := ended f s.state }
    return { conn with
      connRecvWindow, streams := modifyFirst (·.id = f.streamId) receive conn.streams }

/-- Process a frame: the answers, and the connection afterwards. -/
def processFrame (decodeHeaders : Bytes → Exec (List (String × String))) (conn : H2Connection)
    (f : Frame) : Exec (List Frame × H2Connection) :=
  match f.frameType with
  | .settings =>
    if f.flags &&& flagAck = 0 then
      return ([.new .settings flagAck 0 []], { conn with remoteSettings := .parse f.payload })
    else return ([], conn)
  | .headers => do
    let streams := getOrCreateStream conn.streams f.streamId
    let headers ← decodeHeaders f.payload
    let receive (s : H2Stream) := { s with headers, state := ended f s.state }
    return ([], { conn with streams := modifyFirst (·.id = f.streamId) receive streams })
  | .data => do return ([], ← conn.receiveData f)
  | .windowUpdate =>
    match f.payload with
    | a :: b :: c :: d :: _ => do return ([], ← conn.updateWindow f.streamId (increment a b c d))
    | _ => return ([], conn)
  | .ping =>
    if f.flags &&& flagAck = 0 then return ([.new .ping flagAck 0 f.payload], conn)
    else return ([], conn)
  | .goAway =>
    return ([], { conn with streams := conn.streams.map fun s => { s with state := .closed } })
  | .rstStream =>
    let close (s : H2Stream) := { s with state := .closed }
    return ([], { conn with streams := modifyFirst (·.id = f.streamId) close conn.streams })
  | .priority | .continuation | .pushPromise => return ([], conn)

end H2Connection

end MerlionKernel.Http2
