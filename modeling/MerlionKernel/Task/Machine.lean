import MerlionKernel.Theory.Run
import Mathlib.Data.List.Basic

/-!
# The machine under the scheduler

The part of the processor that `task.rs` programs directly: the callee-saved registers, the
stack pointer and the stacks. Stacks are arrays of words, and a stack pointer is a stack
with the index of the word it points at. `context_switch` is the list of its instructions.
-/

namespace MerlionKernel.Task

open Rust Theory

/-- A machine word: the contents of a register or of eight bytes of a stack. -/
abbrev Word := UInt64

/-- The callee-saved registers, the stack pointer apart. -/
inductive Reg
  | rbx
  | rbp
  | r12
  | r13
  | r14
  | r15

/-- The contents of the callee-saved registers. -/
structure Regs where
  rbx : Word
  rbp : Word
  r12 : Word
  r13 : Word
  r14 : Word
  r15 : Word

def Regs.get (regs : Regs) : Reg → Word
  | .rbx => regs.rbx
  | .rbp => regs.rbp
  | .r12 => regs.r12
  | .r13 => regs.r13
  | .r14 => regs.r14
  | .r15 => regs.r15

def Regs.set (regs : Regs) (r : Reg) (w : Word) : Regs :=
  match r with
  | .rbx => { regs with rbx := w }
  | .rbp => { regs with rbp := w }
  | .r12 => { regs with r12 := w }
  | .r13 => { regs with r13 := w }
  | .r14 => { regs with r14 := w }
  | .r15 => { regs with r15 := w }

/-- A stack pointer: the stack it points into, and the word of it. -/
structure Ptr where
  stack : Nat
  word : Nat

/-- The processor and the stacks. `rsi` is the second argument of `context_switch`, and
`cell` the word its first argument points at. A stack whose allocation was freed is
`none`. -/
structure Machine where
  regs : Regs
  rsp : Ptr
  rip : Word
  rsi : Ptr
  cell : Ptr
  memory : List (Option (List Word))

inductive Instr
  | push (r : Reg)
  | pop (r : Reg)
  | movToRdi
  | movFromRsi
  | ret

namespace Machine

/-- The words of the stack in use. An access to a freed stack is undefined; the model
stops there. -/
def words (m : Machine) : Exec (List Word) :=
  match m.memory[m.rsp.stack]? with
  | some (some ws) => .ok ws
  | _ => .error .index

/-- The machine with `low` below the stack pointer and `high` from it on. -/
def withStack (m : Machine) (low high : List Word) : Machine :=
  { m with
    rsp := ⟨m.rsp.stack, low.length⟩
    memory := m.memory.set m.rsp.stack (some (low ++ high)) }

def pushWord (m : Machine) (w : Word) : Exec Machine := do
  let ws ← m.words
  let top ← sub m.rsp.word 1
  let ws ← store ws top w
  return { m with
    rsp := ⟨m.rsp.stack, top⟩
    memory := m.memory.set m.rsp.stack (some ws) }

def popWord (m : Machine) : Exec (Word × Machine) := do
  let ws ← m.words
  let w ← index ws m.rsp.word
  return (w, { m with rsp := ⟨m.rsp.stack, m.rsp.word + 1⟩ })

def exec (m : Machine) : Instr → Exec Machine
  | .push r => m.pushWord (m.regs.get r)
  | .pop r => do
    let (w, m) ← m.popWord
    return { m with regs := m.regs.set r w }
  | .movToRdi => return { m with cell := m.rsp }
  | .movFromRsi => return { m with rsp := m.rsi }
  | .ret => do
    let (w, m) ← m.popWord
    return { m with rip := w }

/-- What a task makes of the registers and its own stack between two calls. -/
structure Work where
  regs : Regs
  word : Nat
  rip : Word
  words : List Word

/-- Let the task in control run for a while. It stays on its stack. -/
def work (m : Machine) (w : Work) : Exec Machine := do
  let ws ← m.words
  if w.words.length = ws.length ∧ w.word ≤ ws.length then
    return { m with
      regs := w.regs
      rsp := ⟨m.rsp.stack, w.word⟩
      rip := w.rip
      memory := m.memory.set m.rsp.stack (some w.words) }
  else .error .index

end Machine

/-- `context_switch`. -/
def contextSwitch : List Instr :=
  [.push .rbx, .push .rbp, .push .r12, .push .r13, .push .r14, .push .r15] ++
    [.movToRdi, .movFromRsi] ++
    [.pop .r15, .pop .r14, .pop .r13, .pop .r12, .pop .rbp, .pop .rbx] ++ [.ret]

/-- The call `context_switch(old_rsp, new_rsp)`: the return address is pushed before the
first instruction. Afterwards `cell` is what was written through `old_rsp`. -/
def callContextSwitch (m : Machine) (newRsp : Ptr) : Exec Machine := do
  let m ← m.pushWord m.rip
  run Machine.exec { m with rsi := newRsp } contextSwitch

/-! ### The stack of a new task -/

/-- `TASK_STACK_SIZE` in words. -/
def stackWords : Nat := 2048

/-- `GUARD_SIZE` in words. -/
def guardWords : Nat := 8

/-- Eight bytes `GUARD_CANARY`. -/
def guardCanary : Word := 0xDEDEDEDEDEDEDEDE

/-- The seven words `spawn` writes from `init_rsp` upwards. -/
def spawnFrame (taskWrapper entry : Word) : List Word := [0, 0, entry, 0, 0, 0, taskWrapper]

/-- The part of a new stack below the frame: the guard, and zeroes. -/
def newStackLow : List Word :=
  List.replicate guardWords guardCanary ++ List.replicate (stackWords - 7 - guardWords) 0

/-- The stack of a new task. -/
def newStack (taskWrapper entry : Word) : List Word :=
  newStackLow ++ spawnFrame taskWrapper entry

theorem length_newStackLow : newStackLow.length = stackWords - 7 := by
  rw [newStackLow, List.length_append, List.length_replicate, List.length_replicate]
  rfl

/-! ### Words around the stack pointer -/

/-- The stack in use has `low` below the stack pointer and `high` from it on. -/
structure At (m : Machine) (low high : List Word) : Prop where
  stack : m.memory[m.rsp.stack]? = some (some (low ++ high))
  word : m.rsp.word = low.length

namespace At

variable {m : Machine} {low high : List Word}

theorem words (h : At m low high) : m.words = .ok (low ++ high) := by
  rw [Machine.words, h.stack]

theorem withStack (h : At m low high) (low' high' : List Word) :
    At (m.withStack low' high') low' high' := by
  obtain ⟨hlt, -⟩ := List.getElem?_eq_some_iff.mp h.stack
  exact ⟨by simp [Machine.withStack, hlt], rfl⟩

theorem pushWord {old : Word} (h : At m (low ++ [old]) high) (w : Word) :
    m.pushWord w = .ok (m.withStack low (w :: high)) := by
  have hword : m.rsp.word = low.length + 1 := by simp [h.word]
  have htop : sub m.rsp.word 1 = .ok low.length := by rw [hword]; rfl
  rw [Machine.pushWord, h.words, ok_bind, htop, ok_bind, List.append_assoc,
    List.singleton_append, store_append_cons]
  rfl

theorem popWord {w : Word} (h : At m low (w :: high)) :
    m.popWord = .ok (w, { m with rsp := ⟨m.rsp.stack, low.length + 1⟩ }) := by
  rw [Machine.popWord, h.words, ok_bind, h.word, index_append_cons]
  rfl

theorem popped {w : Word} (h : At m low (w :: high)) :
    At { m with rsp := ⟨m.rsp.stack, low.length + 1⟩ } (low ++ [w]) high :=
  ⟨by simpa using h.stack, by simp⟩

/-- Pushing registers one after the other overwrites as many words below the stack
pointer. -/
theorem run_push (rs : List Reg) {covered : List Word} (h : At m (low ++ covered) high)
    (hlen : covered.length = rs.length) :
    run Machine.exec m (rs.map .push) =
      .ok (m.withStack low ((rs.map m.regs.get).reverse ++ high)) := by
  induction rs generalizing m high covered with
  | nil =>
    -- Nothing is pushed, and the stack is written back as it was.
    obtain rfl := List.eq_nil_of_length_eq_zero hlen
    rw [List.append_nil] at h
    have hsame : m.memory.set m.rsp.stack (some (low ++ high)) = m.memory := by
      obtain ⟨hlt, hget⟩ := List.getElem?_eq_some_iff.mp h.stack
      rw [← hget, List.set_getElem_self]
    have hrsp : (⟨m.rsp.stack, low.length⟩ : Ptr) = m.rsp := by rw [← h.word]
    simp [Machine.withStack, hsame, hrsp]
  | cons r rs ih =>
    obtain ⟨below, old, rfl⟩ := (List.eq_nil_or_concat' covered).resolve_left
      (by rintro rfl; simp at hlen)
    rw [← List.append_assoc] at h
    rw [List.map_cons, run_cons, show m.exec (.push r) = _ from h.pushWord _, ok_bind,
      ih (h.withStack _ _) (by simpa using hlen)]
    simp [Machine.withStack]

/-- Popping registers one after the other reads the words from the stack pointer on. -/
theorem run_pop (rs : List Reg) {ws : List Word} (h : At m low (ws ++ high))
    (hlen : ws.length = rs.length) :
    run Machine.exec m (rs.map .pop) =
      .ok { m with
        regs := (rs.zip ws).foldl (fun regs rw => regs.set rw.1 rw.2) m.regs
        rsp := ⟨m.rsp.stack, low.length + ws.length⟩ } := by
  induction rs generalizing m low ws with
  | nil =>
    obtain rfl := List.eq_nil_of_length_eq_zero hlen
    have hrsp : (⟨m.rsp.stack, low.length⟩ : Ptr) = m.rsp := by rw [← h.word]
    simp [hrsp]
  | cons r rs ih =>
    obtain ⟨w, ws, rfl⟩ := List.exists_cons_of_length_eq_add_one hlen
    have hexec : m.exec (.pop r) = .ok
        { m with rsp := ⟨m.rsp.stack, low.length + 1⟩, regs := m.regs.set r w } := by
      rw [Machine.exec, h.popWord]
      rfl
    have hnext : At { m with rsp := ⟨m.rsp.stack, low.length + 1⟩, regs := m.regs.set r w }
        (low ++ [w]) (ws ++ high) := ⟨h.popped.stack, h.popped.word⟩
    rw [List.map_cons, run_cons, hexec, ok_bind, ih hnext (by simpa using hlen)]
    simp [Nat.add_assoc, Nat.add_comm 1]

end At

/-- A processor at boot, with eight words of stack to use. -/
def bootMachine : Machine :=
  { regs := ⟨0, 0, 0, 0, 0, 0⟩, rsp := ⟨0, 8⟩, rip := 0, rsi := ⟨0, 0⟩, cell := ⟨0, 0⟩
    memory := [some (List.replicate 8 0)] }

theorem bootMachine_at : At bootMachine (List.replicate 8 0) [] := ⟨rfl, rfl⟩

/-! ### The effect of a switch -/

/-- The words `context_switch` leaves above the stack pointer it saves. -/
def savedFrame (regs : Regs) (rip : Word) : List Word :=
  [regs.r15, regs.r14, regs.r13, regs.r12, regs.rbp, regs.rbx, rip]

/-- A switch saves the registers and the return address on the old stack and takes them
from the new one. -/
theorem callContextSwitch_eq {m : Machine} {low covered high : List Word} {newRsp : Ptr}
    {regs : Regs} {rip : Word} {low' high' : List Word} (hold : At m (low ++ covered) high)
    (hroom : covered.length = 7) (hother : newRsp.stack ≠ m.rsp.stack)
    (hnew : m.memory[newRsp.stack]? = some (some (low' ++ (savedFrame regs rip ++ high'))))
    (hword : newRsp.word = low'.length) :
    callContextSwitch m newRsp = .ok
      { regs, rip
        rsp := ⟨newRsp.stack, low'.length + 7⟩
        rsi := newRsp
        cell := ⟨m.rsp.stack, low.length⟩
        memory := m.memory.set m.rsp.stack (some (low ++ (savedFrame m.regs m.rip ++ high))) } := by
  obtain ⟨below, ret, rfl⟩ := (List.eq_nil_or_concat' covered).resolve_left
    (by rintro rfl; simp at hroom)
  rw [← List.append_assoc] at hold
  -- The old stack after the pushes, before the stack pointer moves.
  let left : Machine :=
    { (m.withStack low (savedFrame m.regs m.rip ++ high)) with rsi := newRsp }
  have hpush : run Machine.exec { (m.withStack (low ++ below) (m.rip :: high)) with rsi := newRsp }
      ([Reg.rbx, .rbp, .r12, .r13, .r14, .r15].map .push) = .ok left := by
    have hat : At { (m.withStack (low ++ below) (m.rip :: high)) with rsi := newRsp }
        (low ++ below) (m.rip :: high) := ⟨(hold.withStack _ _).stack, rfl⟩
    rw [hat.run_push _ (by simpa using hroom)]
    simp [left, Machine.withStack, savedFrame, Regs.get]
  -- The machine on the new stack.
  let entered : Machine := { left with cell := left.rsp, rsp := newRsp }
  have hat : At entered low'
      ([regs.r15, regs.r14, regs.r13, regs.r12, regs.rbp, regs.rbx] ++ (rip :: high')) := by
    refine ⟨?_, hword⟩
    simp only [entered, left, Machine.withStack]
    rw [List.getElem?_set_ne hother.symm, hnew]
    rfl
  have hpop : run Machine.exec entered ([Reg.r15, .r14, .r13, .r12, .rbp, .rbx].map .pop) =
      .ok { entered with regs, rsp := ⟨newRsp.stack, low'.length + 6⟩ } :=
    hat.run_pop [.r15, .r14, .r13, .r12, .rbp, .rbx] rfl
  have hret : At { entered with regs, rsp := ⟨newRsp.stack, low'.length + 6⟩ }
      (low' ++ [regs.r15, regs.r14, regs.r13, regs.r12, regs.rbp, regs.rbx]) (rip :: high') :=
    ⟨by simpa using hat.stack, by simp⟩
  rw [callContextSwitch, hold.pushWord, ok_bind]
  change run Machine.exec _ ([Reg.rbx, .rbp, .r12, .r13, .r14, .r15].map Instr.push ++
    [.movToRdi, .movFromRsi] ++ [Reg.r15, .r14, .r13, .r12, .rbp, .rbx].map Instr.pop ++ [.ret]) = _
  rw [run_append, run_append, run_append, hpush, ok_bind]
  change (run Machine.exec entered _ >>= _) = _
  rw [hpop, ok_bind, run_cons, Machine.exec, hret.popWord]
  simp [entered, left, Machine.withStack]

/-! ### Which stack the machine is on -/

/-- The second machine is still on the stack of the first one. -/
structure Stays (m m' : Machine) : Prop where
  stack : m'.rsp.stack = m.rsp.stack
  cell : m'.cell = m.cell
  rsi : m'.rsi = m.rsi
  length : m'.memory.length = m.memory.length

theorem Stays.trans {m₁ m₂ m₃ : Machine} (h : Stays m₁ m₂) (h' : Stays m₂ m₃) : Stays m₁ m₃ :=
  ⟨h'.stack.trans h.stack, h'.cell.trans h.cell, h'.rsi.trans h.rsi, h'.length.trans h.length⟩

theorem stays_of_pushWord {m m' : Machine} {w : Word} (h : m.pushWord w = .ok m') :
    Stays m m' := by
  unfold Machine.pushWord at h
  simp only [bind_eq_ok_iff, pure_eq_ok, Except.ok.injEq] at h
  obtain ⟨ws, -, top, -, ws', -, rfl⟩ := h
  exact ⟨rfl, rfl, rfl, List.length_set ..⟩

theorem stays_of_work {m m' : Machine} {w : Machine.Work} (h : m.work w = .ok m') :
    Stays m m' := by
  obtain ⟨ws, -, h⟩ := bind_eq_ok_iff.mp h
  split at h
  · cases h
    exact ⟨rfl, rfl, rfl, List.length_set ..⟩
  · cases h

theorem stays_of_popWord {m m' : Machine} {w : Word} (h : m.popWord = .ok (w, m')) :
    Stays m m' := by
  unfold Machine.popWord at h
  simp only [bind_eq_ok_iff, pure_eq_ok, Except.ok.injEq, Prod.mk.injEq] at h
  obtain ⟨ws, -, w', -, -, rfl⟩ := h
  exact ⟨rfl, rfl, rfl, rfl⟩

theorem word_of_pushWord {m m' : Machine} {w : Word} (h : m.pushWord w = .ok m') :
    m.rsp.word = m'.rsp.word + 1 := by
  unfold Machine.pushWord at h
  simp only [bind_eq_ok_iff, pure_eq_ok, Except.ok.injEq] at h
  obtain ⟨ws, -, top, htop, ws', -, rfl⟩ := h
  unfold sub at htop
  split at htop
  · cases htop
    exact (Nat.sub_add_cancel ‹_›).symm
  · cases htop

theorem word_of_run_push (rs : List Reg) {m m' : Machine}
    (h : run Machine.exec m (rs.map .push) = .ok m') : rs.length ≤ m.rsp.word := by
  induction rs generalizing m with
  | nil => exact Nat.zero_le _
  | cons r rs ih =>
    rw [List.map_cons, run_cons, bind_eq_ok_iff] at h
    obtain ⟨t, hpush, hrest⟩ := h
    rw [word_of_pushWord hpush]
    exact Nat.succ_le_succ (ih hrest)

/-- The two instructions that handle the stack pointer itself. -/
def Instr.movesRsp : Instr → Bool
  | .movToRdi | .movFromRsi => true
  | _ => false

theorem stays_of_exec {m m' : Machine} {i : Instr} (hi : i.movesRsp = false)
    (h : m.exec i = .ok m') : Stays m m' := by
  cases i with
  | push r => exact stays_of_pushWord h
  | pop r =>
    obtain ⟨⟨w, t⟩, hpop, ht⟩ := bind_eq_ok_iff.mp h
    cases ht
    have := stays_of_popWord hpop
    exact ⟨this.stack, this.cell, this.rsi, this.length⟩
  | ret =>
    obtain ⟨⟨w, t⟩, hpop, ht⟩ := bind_eq_ok_iff.mp h
    cases ht
    have := stays_of_popWord hpop
    exact ⟨this.stack, this.cell, this.rsi, this.length⟩
  | movToRdi => cases hi
  | movFromRsi => cases hi

theorem stays_of_run {is : List Instr} (his : ∀ i ∈ is, i.movesRsp = false) {m m' : Machine}
    (h : run Machine.exec m is = .ok m') : Stays m m' := by
  induction is generalizing m with
  | nil =>
    obtain rfl : m = m' := by simpa using h
    exact ⟨rfl, rfl, rfl, rfl⟩
  | cons i is ih =>
    rw [run_cons, bind_eq_ok_iff] at h
    obtain ⟨t, hexec, hrest⟩ := h
    have hfirst := stays_of_exec (his i List.mem_cons_self) hexec
    exact hfirst.trans (ih (fun j hj => his j (List.mem_cons_of_mem i hj)) hrest)

/-- A switch that returns has saved a pointer into the stack it left, and is on the stack
it was sent to. -/
theorem stack_of_callContextSwitch {m m' : Machine} {newRsp : Ptr}
    (h : callContextSwitch m newRsp = .ok m') :
    m'.rsp.stack = newRsp.stack ∧ m'.cell.stack = m.rsp.stack ∧
      m'.memory.length = m.memory.length := by
  obtain ⟨called, hcall, h⟩ := bind_eq_ok_iff.mp h
  rw [contextSwitch, List.append_assoc, run_append, run_append, bind_eq_ok_iff] at h
  obtain ⟨entered, hswap, hpops⟩ := h
  obtain ⟨left, hpushes, hswap⟩ := bind_eq_ok_iff.mp hswap
  have hcalled := stays_of_pushWord hcall
  have hleft := stays_of_run (by decide) hpushes
  have hentered := stays_of_run (by decide) hpops
  cases hswap
  refine ⟨hentered.stack.trans ?_, ?_, ?_⟩
  · rw [hleft.rsi]
  · rw [hentered.cell, hleft.stack, hcalled.stack]
  · rw [hentered.length, hleft.length, hcalled.length]

/-- A switch that returns had room for the seven words it pushes. -/
theorem word_of_callContextSwitch {m m' : Machine} {newRsp : Ptr}
    (h : callContextSwitch m newRsp = .ok m') : 7 ≤ m.rsp.word := by
  obtain ⟨called, hcall, h⟩ := bind_eq_ok_iff.mp h
  rw [contextSwitch, List.append_assoc, List.append_assoc, run_append, bind_eq_ok_iff] at h
  obtain ⟨left, hpushes, -⟩ := h
  have hregs := word_of_run_push [.rbx, .rbp, .r12, .r13, .r14, .r15] hpushes
  rw [word_of_pushWord hcall]
  exact Nat.succ_le_succ hregs

end MerlionKernel.Task
