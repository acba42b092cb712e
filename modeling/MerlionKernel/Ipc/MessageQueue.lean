import MerlionKernel.Rust.Bytes
import MerlionKernel.Theory.Registry
import MerlionKernel.Theory.Run
import MerlionKernel.Theory.StableQueue

/-!
# POSIX message queues

`ipc_ext.rs` keeps the messages of a queue in the order in which they will be received: a new
message is inserted before the first one of lower priority, and a receive takes the first.
A ledger records what a client may expect of a queue: the messages it accepted, those it
handed out, and those still pending in the order in which they were sent.
-/

namespace MerlionKernel.Ipc.Mq

open Rust Theory

/-- `MAX_MESSAGE_QUEUES`. -/
def maxMessageQueues : Nat := 32

/-- `MAX_MESSAGES_PER_QUEUE`. -/
def maxMessagesPerQueue : Nat := 128

/-- `MAX_MESSAGE_SIZE`. -/
def maxMessageSize : Nat := 4096

/-- A message with its priority. -/
structure MqMessage where
  data : Bytes
  priority : Nat

/-- A message queue. -/
structure MessageQueue where
  id : Nat
  name : String
  messages : List MqMessage
  maxMessages : Nat
  maxMsgSize : Nat
  namespaceId : Nat
  totalSent : Nat
  totalReceived : Nat

/-- The table of all queues. -/
structure MqTable where
  queues : List MessageQueue
  nextId : Nat

namespace MqTable

/-- The empty table. -/
def new : MqTable := { queues := [], nextId := 1 }

/-- The number of the queue with a name, which is created if there is none. -/
def «open» (self : MqTable) (name : String) (namespaceId : Nat) : Exec (Option Nat × MqTable) :=
  match self.queues.find? fun q => q.name = name ∧ q.namespaceId = namespaceId with
  | some q => return (some q.id, self)
  | none =>
    if self.queues.length ≥ maxMessageQueues then return (none, self)
    else do
      let id := self.nextId
      let nextId ← u64 (self.nextId + 1)
      let queue : MessageQueue :=
        { id, name, messages := [], maxMessages := maxMessagesPerQueue,
          maxMsgSize := maxMessageSize, namespaceId, totalSent := 0, totalReceived := 0 }
      return (some id, { queues := self.queues ++ [queue], nextId })

/-- The first queue with a number. -/
def find (self : MqTable) (id : Nat) : Option MessageQueue :=
  lookup MessageQueue.id self.queues id

/-- The table after a change to the queue that `find` found. -/
def put (self : MqTable) (q : MessageQueue) : MqTable :=
  { self with queues := replace MessageQueue.id self.queues q }

/-- Insert a message before the first one of lower priority. -/
def send (self : MqTable) (id : Nat) (data : Bytes) (priority : Nat) : Exec (Bool × MqTable) :=
  match self.find id with
  | none => return (false, self)
  | some q =>
    if q.messages.length ≥ q.maxMessages then return (false, self)
    else if data.length > q.maxMsgSize then return (false, self)
    else do
      let pos := q.messages.findIdx fun m => m.priority < priority
      let messages ← insertAt q.messages pos { data, priority }
      let totalSent ← u64 (q.totalSent + 1)
      return (true, self.put { q with messages, totalSent })

/-- Take the first message. -/
def receive (self : MqTable) (id : Nat) : Exec (Option (Bytes × Nat) × MqTable) :=
  match self.find id with
  | none => return (none, self)
  | some q =>
    match q.messages with
    | [] => return (none, self)
    | msg :: messages => do
      let totalReceived ← u64 (q.totalReceived + 1)
      return (some (msg.data, msg.priority), self.put { q with messages, totalReceived })

/-- Remove a queue. -/
def close (self : MqTable) (id : Nat) : Bool × MqTable :=
  ((self.find id).isSome, { self with queues := discard MessageQueue.id self.queues id })

end MqTable

/-! ### Ledgers -/

/-- The messages that a queue accepted and that were received from it, and those pending, in
the order in which they were sent. -/
structure Ledger where
  accepted : List MqMessage
  received : List MqMessage
  pending : List MqMessage

namespace Ledger

/-- Nothing was sent. -/
def empty : Ledger := { accepted := [], received := [], pending := [] }

/-- A message is accepted. -/
def accept (ledger : Ledger) (msg : MqMessage) : Ledger :=
  { ledger with accepted := ledger.accepted ++ [msg], pending := ledger.pending ++ [msg] }

/-- A receive handed out a message: the one of highest priority that was sent first is no
longer pending. -/
def handOut (ledger : Ledger) (msg : MqMessage) : Ledger :=
  { ledger with
    received := ledger.received ++ [msg]
    pending := ((takeMax MqMessage.priority ledger.pending).map Prod.snd).getD [] }

end Ledger

/-- The table of queues with a ledger for each number. -/
structure System where
  table : MqTable
  ledger : Nat → Ledger

/-- No queue exists. -/
def System.start : System := { table := .new, ledger := fun _ => .empty }

/-- The calls of the clients. -/
inductive Call
  | «open» (name : String)
  | send (id : Nat) (data : Bytes) (priority : Nat)
  | receive (id : Nat)
  | close (id : Nat)

/-- Perform a call and record what was accepted or handed out. -/
def step (s : System) : Call → Exec System
  | .open name => do
    let (_, table) ← s.table.open name 0
    return { s with table }
  | .send id data priority => do
    let (accepted, table) ← s.table.send id data priority
    if accepted then
      let history := (s.ledger id).accept ⟨data, priority⟩
      return { table, ledger := Function.update s.ledger id history }
    else return { s with table }
  | .receive id => do
    match ← s.table.receive id with
    | (some (data, priority), table) =>
      let history := (s.ledger id).handOut ⟨data, priority⟩
      return { table, ledger := Function.update s.ledger id history }
    | (none, table) => return { s with table }
  | .close id => return { s with table := (s.table.close id).2 }

/-! ### One queue -/

/-- Insertion before the first message of lower priority keeps the messages in the order in
which they will be received. -/
theorem insert_served {messages pending : List MqMessage} (data : Bytes) (priority : Nat)
    (h : ServedFrom MqMessage.priority messages pending) :
    Returns (insertAt messages (messages.findIdx fun m => m.priority < priority) ⟨data, priority⟩)
      fun messages' => ServedFrom MqMessage.priority messages' (pending ++ [⟨data, priority⟩]) := by
  rw [insertAt_eq_ok _ List.findIdx_le_length]
  refine .ok (ServedFrom.insert (by rwa [List.take_append_drop]) (fun y hy => ?_) fun y hy => ?_)
  · obtain ⟨i, hi, rfl⟩ := List.mem_take_iff_getElem.mp hy
    have hlow := List.not_of_lt_findIdx (Nat.lt_of_lt_of_le hi (Nat.min_le_left _ _))
    simpa using hlow
  · obtain ⟨i, hi, rfl⟩ := List.mem_drop_iff_getElem.mp hy
    -- The message at the place of insertion has lower priority, and the others follow it.
    have hlt : messages.findIdx (fun m => decide (m.priority < priority)) < messages.length := by
      omega
    have hfirst : messages[messages.findIdx fun m => decide (m.priority < priority)].priority <
        priority := by
      simpa using List.findIdx_getElem (w := hlt)
    refine Nat.lt_of_le_of_lt ?_ hfirst
    rcases Nat.eq_zero_or_pos i with rfl | hpos
    · exact Nat.le_refl _
    · exact List.pairwise_iff_getElem.mp h.sorted _ (_ + i) hlt (by omega) (by omega)

/-- The stored messages of a queue are those its ledger has pending, and nothing got lost. -/
structure Keeps (q : MessageQueue) (ledger : Ledger) : Prop where
  served : ServedFrom MqMessage.priority q.messages ledger.pending
  conserved : (ledger.received ++ ledger.pending).Perm ledger.accepted

theorem Keeps.accept {q : MessageQueue} {ledger : Ledger} {msg : MqMessage}
    {messages : List MqMessage} {totalSent : Nat} (h : Keeps q ledger)
    (hserved : ServedFrom MqMessage.priority messages (ledger.pending ++ [msg])) :
    Keeps { q with messages, totalSent } (ledger.accept msg) where
  served := hserved
  conserved := by
    simp only [Ledger.accept, ← List.append_assoc]
    exact h.conserved.append_right [msg]

/-- The first stored message is the pending one to hand out. -/
theorem Keeps.handOut {q : MessageQueue} {ledger : Ledger} {msg : MqMessage}
    {messages : List MqMessage} (h : Keeps q ledger) (hmessages : q.messages = msg :: messages)
    (totalReceived : Nat) :
    (∃ rest, takeMax MqMessage.priority ledger.pending = some (msg, rest)) ∧
      Keeps { q with messages, totalReceived } (ledger.handOut msg) := by
  have hserved := h.served
  rw [hmessages] at hserved
  obtain ⟨rest, htake, hserved'⟩ := hserved.pop
  refine ⟨⟨rest, htake⟩, ?_, ?_⟩
  · simpa [Ledger.handOut, htake] using hserved'
  · -- The message moves from the pending ones to the received ones.
    obtain ⟨front, back, hpending, rfl, -, -⟩ := takeMax_eq_some_iff.mp htake
    have hmove : (ledger.received ++ [msg] ++ (front ++ back)).Perm
        (ledger.received ++ ledger.pending) := by
      rw [hpending, List.append_assoc, List.singleton_append]
      exact (List.perm_middle.symm).append_left _
    simpa [Ledger.handOut, htake] using hmove.trans h.conserved

/-! ### The table -/

/-- The queues have different numbers, and each agrees with its ledger; the ledgers of the
numbers not yet given out are empty. -/
structure Sound (s : System) : Prop where
  issued : Issued MessageQueue.id s.table.nextId s.table.queues
  keeps : ∀ q ∈ s.table.queues, Keeps q (s.ledger q.id)
  unused : ∀ id, s.table.nextId ≤ id → s.ledger id = .empty

theorem sound_start : Sound .start where
  issued := Issued.nil 1
  keeps := by intro q hq; cases hq
  unused := fun _ _ => rfl

/-- A queue and its ledger change together. -/
theorem Sound.put {s : System} (h : Sound s) {q q' : MessageQueue} {ledger : Ledger}
    (hq : q ∈ s.table.queues) (hid : q'.id = q.id) (hkeeps : Keeps q' ledger) :
    Sound { table := s.table.put q', ledger := Function.update s.ledger q.id ledger } where
  issued := h.issued.replace
  keeps := by
    intro r hr
    rcases (h.issued.mem_replace hq hid).mp hr with rfl | ⟨hr, hne⟩
    · simpa [hid] using hkeeps
    · have hkey : r.id ≠ q.id := fun heq => hne (h.issued.eq_of_key hr hq heq)
      simpa [hkey] using h.keeps r hr
  unused := by
    intro id hle
    have hlt := h.issued.key_lt q hq
    have hne : id ≠ q.id := by
      have : s.table.nextId ≤ id := hle
      omega
    simpa [hne] using h.unused id hle

theorem Sound.open {s s' : System} {name : String} (h : Sound s)
    (hstep : step s (.open name) = .ok s') : Sound s' := by
  obtain ⟨⟨r, table⟩, hopen, hrest⟩ := bind_eq_ok_iff.mp hstep
  cases hrest
  unfold MqTable.open at hopen
  split at hopen
  · cases hopen
    exact h
  · split_ifs at hopen
    · cases hopen
      exact h
    · obtain ⟨next, hnext, hopen⟩ := bind_eq_ok_iff.mp hopen
      obtain ⟨-, rfl⟩ := u64_eq_ok_iff.mp hnext
      cases hopen
      refine ⟨h.issued.concat rfl, fun q hq => ?_, fun id hid => ?_⟩
      · rcases List.mem_append.mp hq with hq | hq
        · exact h.keeps q hq
        · -- The ledger of the new number is empty, as the new queue is.
          rw [List.mem_singleton.mp hq]
          have hempty : s.ledger s.table.nextId = .empty := h.unused _ (Nat.le_refl _)
          exact ⟨by rw [hempty]; exact .nil, by rw [hempty]; exact .nil⟩
      · exact h.unused id (Nat.le_of_succ_le hid)

/-- What a send does: nothing, or the message is accepted. -/
theorem Sound.send {s s' : System} {id : Nat} {data : Bytes} {priority : Nat} (h : Sound s)
    (hstep : step s (.send id data priority) = .ok s') : Sound s' := by
  obtain ⟨⟨accepted, table⟩, hsend, hrest⟩ := bind_eq_ok_iff.mp hstep
  unfold MqTable.send at hsend
  cases hfind : s.table.find id with
  | none =>
    simp only [hfind, pure_eq_ok, Except.ok.injEq, Prod.mk.injEq] at hsend
    obtain ⟨rfl, rfl⟩ := hsend
    cases hrest
    exact h
  | some q =>
    obtain ⟨hq, rfl⟩ := mem_of_lookup hfind
    simp only [hfind] at hsend
    split_ifs at hsend
    · cases hsend
      cases hrest
      exact h
    · cases hsend
      cases hrest
      exact h
    · obtain ⟨messages, hinsert, hsend⟩ := bind_eq_ok_iff.mp hsend
      obtain ⟨totalSent, -, hsend⟩ := bind_eq_ok_iff.mp hsend
      cases hsend
      cases hrest
      have hkeeps := h.keeps q hq
      have hserved := (insert_served data priority hkeeps.served).elim hinsert
      exact h.put hq rfl (hkeeps.accept hserved)

/-- What a receive on an open queue does: it hands out the first pending message of highest
priority, or nothing when no message is pending. -/
theorem of_receive {s : System} {answer : Option (Bytes × Nat)} {table : MqTable} (h : Sound s)
    {q : MessageQueue} (hq : q ∈ s.table.queues)
    (hreceive : s.table.receive q.id = .ok (answer, table)) :
    (answer = none ∧ (s.ledger q.id).pending = [] ∧ table = s.table) ∨
      ∃ msg rest, answer = some (msg.data, msg.priority) ∧
        takeMax MqMessage.priority (s.ledger q.id).pending = some (msg, rest) ∧
        Sound { table, ledger := Function.update s.ledger q.id ((s.ledger q.id).handOut msg) } := by
  have hfind : s.table.find q.id = some q := h.issued.lookup_eq_some_iff.mpr ⟨hq, rfl⟩
  have hkeeps := h.keeps q hq
  unfold MqTable.receive at hreceive
  simp only [hfind] at hreceive
  cases hmessages : q.messages with
  | nil =>
    simp only [hmessages, pure_eq_ok, Except.ok.injEq, Prod.mk.injEq] at hreceive
    exact .inl ⟨hreceive.1.symm, hkeeps.served.eq_nil_iff.mp hmessages, hreceive.2.symm⟩
  | cons msg messages =>
    simp only [hmessages] at hreceive
    obtain ⟨totalReceived, -, hreceive⟩ := bind_eq_ok_iff.mp hreceive
    cases hreceive
    obtain ⟨⟨rest, htake⟩, hkeeps'⟩ := hkeeps.handOut hmessages totalReceived
    exact .inr ⟨msg, rest, rfl, htake, h.put hq rfl hkeeps'⟩

theorem Sound.receive {s s' : System} {id : Nat} (h : Sound s)
    (hstep : step s (.receive id) = .ok s') : Sound s' := by
  obtain ⟨⟨answer, table⟩, hreceive, hrest⟩ := bind_eq_ok_iff.mp hstep
  cases hfind : s.table.find id with
  | none =>
    simp only [MqTable.receive, hfind, pure_eq_ok, Except.ok.injEq, Prod.mk.injEq] at hreceive
    obtain ⟨rfl, rfl⟩ := hreceive
    cases hrest
    exact h
  | some q =>
    obtain ⟨hq, rfl⟩ := mem_of_lookup hfind
    rcases of_receive h hq hreceive with ⟨rfl, -, rfl⟩ | ⟨msg, rest, rfl, -, hsound⟩
    · cases hrest
      exact h
    · cases hrest
      exact hsound

theorem Sound.close {s : System} (h : Sound s) (id : Nat) :
    Sound { s with table := (s.table.close id).2 } where
  issued := h.issued.discard
  keeps := fun q hq => h.keeps q (h.issued.mem_discard.mp hq).1
  unused := h.unused

/-- Every call keeps the queues in agreement with their ledgers. -/
theorem Sound.step {s s' : System} {call : Call} (h : Sound s) (hstep : step s call = .ok s') :
    Sound s' := by
  cases call with
  | «open» name => exact h.open hstep
  | send id data priority => exact h.send hstep
  | receive id => exact h.receive hstep
  | close id =>
    cases hstep
    exact h.close id

/-! ### Counters -/

/-- The counters are at most the number of calls made. -/
def Counted (n : Nat) (s : System) : Prop :=
  s.table.nextId ≤ n + 1 ∧ ∀ q ∈ s.table.queues, q.totalSent ≤ n ∧ q.totalReceived ≤ n

theorem Counted.mono {n : Nat} {s : System} (h : Counted n s) : Counted (n + 1) s := by
  refine ⟨Nat.le_succ_of_le h.1, fun q hq => ?_⟩
  exact ⟨Nat.le_succ_of_le (h.2 q hq).1, Nat.le_succ_of_le (h.2 q hq).2⟩

theorem Counted.put {n : Nat} {s : System} (hsound : Sound s) (h : Counted n s)
    {q q' : MessageQueue} (hq : q ∈ s.table.queues) (hid : q'.id = q.id)
    (hcount : q'.totalSent ≤ n + 1 ∧ q'.totalReceived ≤ n + 1) (ledger : Nat → Ledger) :
    Counted (n + 1) { table := s.table.put q', ledger } := by
  refine ⟨Nat.le_succ_of_le h.1, fun r hr => ?_⟩
  rcases (hsound.issued.mem_replace hq hid).mp hr with rfl | ⟨hr, -⟩
  · exact hcount
  · exact h.mono.2 r hr

/-- A call returns as long as no counter is exhausted. -/
theorem step_returns {n : Nat} {s : System} (hn : n < 2 ^ 64 - 2) (hsound : Sound s)
    (h : Counted n s) (call : Call) : Returns (step s call) (Counted (n + 1)) := by
  obtain ⟨hnext, hqueues⟩ := id h
  cases call with
  | «open» name =>
    simp only [Mq.step, MqTable.open]
    split
    · exact .ok h.mono
    · split_ifs
      · exact .ok h.mono
      · rw [u64_eq_ok (by omega)]
        refine .ok ⟨Nat.succ_le_succ hnext, fun q hq => ?_⟩
        rcases List.mem_append.mp hq with hq | hq
        · exact h.mono.2 q hq
        · rw [List.mem_singleton.mp hq]
          exact ⟨Nat.zero_le _, Nat.zero_le _⟩
  | send id data priority =>
    simp only [Mq.step, MqTable.send]
    cases hfind : s.table.find id with
    | none => exact .ok h.mono
    | some q =>
      obtain ⟨hq, rfl⟩ := mem_of_lookup hfind
      have hcount := hqueues q hq
      dsimp only
      split_ifs
      · exact .ok h.mono
      · exact .ok h.mono
      · obtain ⟨messages, hinsert, -⟩ := insert_served data priority (hsound.keeps q hq).served
        rw [hinsert, ok_bind, u64_eq_ok (by omega)]
        refine .ok (h.put hsound hq (by rfl) ?_ _)
        exact ⟨Nat.succ_le_succ hcount.1, Nat.le_succ_of_le hcount.2⟩
  | receive id =>
    simp only [Mq.step, MqTable.receive]
    cases hfind : s.table.find id with
    | none => exact .ok h.mono
    | some q =>
      obtain ⟨hq, rfl⟩ := mem_of_lookup hfind
      have hcount := hqueues q hq
      dsimp only
      cases q.messages with
      | nil => exact .ok h.mono
      | cons msg messages =>
        dsimp only
        rw [u64_eq_ok (by omega)]
        refine .ok (h.put hsound hq (by rfl) ?_ _)
        exact ⟨Nat.le_succ_of_le hcount.1, Nat.succ_le_succ hcount.2⟩
  | close id =>
    refine .ok ⟨Nat.le_succ_of_le hnext, fun q hq => ?_⟩
    exact h.mono.2 q (hsound.issued.mem_discard.mp hq).1

/-! ### Runs -/

/-- Runs return, unless there are so many calls that a counter overflows. After every run, for
every open queue: the messages received and those pending are together the messages
accepted. A receive that finds nothing pending answers `none`; any other hands out a pending
message `msg` such that those sent before it have lower priority and those sent after it
have no higher one, and `msg` is then no longer pending. -/
theorem received_in_order (calls : List Call) :
    (calls.length ≤ 2 ^ 64 - 2 → ∃ s, run step .start calls = .ok s) ∧
    ∀ s, run step .start calls = .ok s → ∀ q ∈ s.table.queues,
      ((s.ledger q.id).received ++ (s.ledger q.id).pending).Perm (s.ledger q.id).accepted ∧
      ∀ answer table, s.table.receive q.id = .ok (answer, table) →
        (answer = none ∧ (s.ledger q.id).pending = []) ∨
        ∃ front msg back, (s.ledger q.id).pending = front ++ msg :: back ∧
          (∀ m ∈ front, m.priority < msg.priority) ∧ (∀ m ∈ back, m.priority ≤ msg.priority) ∧
          answer = some (msg.data, msg.priority) ∧
          ∃ s', step s (.receive q.id) = .ok s' ∧ s'.ledger q.id =
            { s.ledger q.id with
              received := (s.ledger q.id).received ++ [msg], pending := front ++ back } := by
  constructor
  · intro hlen
    have hruns : Returns (run step .start calls) fun s =>
        Sound s ∧ Counted (0 + calls.length) s := by
      refine run_returns_within (fun n s => Sound s ∧ Counted n s) ?_
        ⟨sound_start, Nat.le_refl _, fun q hq => by cases hq⟩ (Nat.zero_add calls.length ▸ hlen)
      rintro n s call hn ⟨hsound, hcounted⟩
      obtain ⟨s', hs', hcounted'⟩ := step_returns hn hsound hcounted call
      exact ⟨s', hs', hsound.step hs', hcounted'⟩
    obtain ⟨s, hs, -⟩ := hruns
    exact ⟨s, hs⟩
  · intro s hrun q hq
    have hsound : Sound s := run_invariant (fun _ _ _ h hs => h.step hs) sound_start hrun
    refine ⟨(hsound.keeps q hq).conserved, fun answer table hreceive => ?_⟩
    rcases of_receive hsound hq hreceive with ⟨hnone, hempty, -⟩ | ⟨msg, rest, rfl, htake, -⟩
    · exact .inl ⟨hnone, hempty⟩
    · obtain ⟨front, back, hpending, rfl, hfront, hback⟩ := takeMax_eq_some_iff.mp htake
      refine .inr ⟨front, msg, back, hpending, hfront, hback, rfl, ?_⟩
      refine ⟨{ table, ledger := Function.update s.ledger q.id ((s.ledger q.id).handOut msg) },
        ?_, ?_⟩
      · simp only [step, hreceive, ok_bind]
        rfl
      · simp [Ledger.handOut, htake]

end MerlionKernel.Ipc.Mq
