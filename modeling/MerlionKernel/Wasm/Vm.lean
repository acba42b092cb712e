import MerlionKernel.Rust.Cursor
import MerlionKernel.Rust.Fallible
import MerlionKernel.Wasm.Module

/-!
# The WebAssembly machine

The stack machine of `wasm.rs`. All frames share one vector of locals and one operand stack. Code
runs straight on: there are calls and returns, and no branches. An operation returns an `Err` or
stops with a fault; `Attempt` keeps the two apart. After an `Err` the machine is cleared before it
is used again, so its state at that point is left out.
-/

namespace MerlionKernel.Wasm

open Rust

def opUnreachable : UInt8 := 0x00
def opNop : UInt8 := 0x01
def opReturn : UInt8 := 0x0F
def opCall : UInt8 := 0x10
def opLocalGet : UInt8 := 0x20
def opLocalSet : UInt8 := 0x21
def opI32Const : UInt8 := 0x41
def opI32Add : UInt8 := 0x6A
def opI32Sub : UInt8 := 0x6B
def opI32Mul : UInt8 := 0x6C

/-- `MAX_STACK`. -/
def maxStack : Nat := 1024

/-- `MAX_CALL_DEPTH`. -/
def maxCallDepth : Nat := 256

/-- A frame on the call stack. -/
structure CallFrame where
  funcIdx : UInt32
  ip : Nat
  localsBase : Nat
  localsCount : Nat
  stackBase : Nat
  resultCount : Nat

/-- The machine. The frame on top of the call stack comes first; the operand stack and the locals
grow at the end. -/
structure WasmVm where
  stack : List Int32
  locals : List Int32
  callStack : List CallFrame

namespace WasmVm

/-- Push a value onto the operand stack. -/
def push (vm : WasmVm) (val : Int32) : Attempt WasmError WasmVm :=
  if vm.stack.length ≥ maxStack then fail .stackOverflow
  else .ok { vm with stack := vm.stack ++ [val] }

/-- Pop a value from the operand stack. -/
def pop (vm : WasmVm) : Attempt WasmError (Int32 × WasmVm) :=
  match vm.stack.getLast? with
  | some val => .ok (val, { vm with stack := vm.stack.dropLast })
  | none => fail .stackUnderflow

/-- Set up a call: the locals of the function, with its arguments first, and a frame. -/
def callFunc (m : WasmModule) (vm : WasmVm) (funcIdx : UInt32) (args : List Int32) :
    Attempt WasmError WasmVm :=
  if vm.callStack.length ≥ maxCallDepth then fail .callStackOverflow
  else if funcIdx.toNat ≥ m.bodies.length then fail (.funcIndexOob funcIdx)
  else do
    let typeIdx ← orFault (index m.funcTypeIndices funcIdx.toNat)
    let funcType ← orFault (index m.types typeIdx.toNat)
    let body ← orFault (index m.bodies funcIdx.toNat)
    let localsBase := vm.locals.length
    let paramCount := funcType.params.length
    let localsCount := paramCount + body.locals.length
    let resized := vm.locals ++ List.replicate localsCount 0
    let locals ← orFault (storeArray resized localsBase (args.take paramCount))
    return {
      stack := vm.stack
      locals := locals
      callStack := {
        funcIdx := funcIdx
        ip := 0
        localsBase := localsBase
        localsCount := localsCount
        stackBase := vm.stack.length
        resultCount := funcType.results.length } :: vm.callStack }

/-- Push the results of a call, one by one. -/
def pushAll (vm : WasmVm) : List Int32 → Attempt WasmError WasmVm
  | [] => .ok vm
  | val :: rest => do
    let vm ← vm.push val
    vm.pushAll rest

/-- Leave the function on top: its results replace what it has put on the operand stack, and its
locals are dropped. -/
def doReturn (m : WasmModule) (vm : WasmVm) : Attempt WasmError (List Int32 × WasmVm) :=
  match vm.callStack with
  | [] => orFault (.error .unwrap)
  | frame :: below => do
    let ti ← orFault (index m.funcTypeIndices frame.funcIdx.toNat)
    let rc := (← orFault (index m.types ti.toNat)).results.length
    if vm.stack.length < rc then fail .stackUnderflow
    else do
      let start := vm.stack.length - rc
      let results ← orFault (slice vm.stack start vm.stack.length)
      let vm ← pushAll ⟨vm.stack.take frame.stackBase, vm.locals, below⟩ results
      return (results, { vm with locals := vm.locals.take frame.localsBase })

/-- Return from the function on top, and from `run` if that was the outermost one. -/
def returned (m : WasmModule) (vm : WasmVm) :
    Attempt WasmError (ControlFlow WasmVm (List Int32)) := do
  let (results, vm) ← doReturn m vm
  return if vm.callStack.isEmpty then .stop results else .again vm

/-- The operand behind an opcode: the frame on top moves on behind it. -/
def immediate {α : Type} (decode : Bytes → Except WasmError (α × Nat)) (code : Bytes)
    (frame : CallFrame) : Attempt WasmError (α × CallFrame) := do
  match decode (← orFault (slice code frame.ip code.length)) with
  | .error e => fail e
  | .ok (a, n) => return (a, { frame with ip := frame.ip + n })

/-- `OP_CALL`, with the frame of the caller on top of `below`. -/
def execCall (m : WasmModule) (vm : WasmVm) (code : Bytes) (frame : CallFrame)
    (below : List CallFrame) : Attempt WasmError WasmVm := do
  let (calleeIdx, frame) ← immediate decodeU32 code frame
  if calleeIdx.toNat ≥ m.funcTypeIndices.length then fail (.funcIndexOob calleeIdx)
  else do
    let cti ← orFault (index m.funcTypeIndices calleeIdx.toNat)
    let nParams := (← orFault (index m.types cti.toNat)).params.length
    if vm.stack.length < nParams then fail .stackUnderflow
    else do
      let start := vm.stack.length - nParams
      let args ← orFault (slice vm.stack start vm.stack.length)
      callFunc m ⟨vm.stack.take start, vm.locals, frame :: below⟩ calleeIdx args

/-- `OP_LOCAL_GET`. -/
def execLocalGet (vm : WasmVm) (code : Bytes) (frame : CallFrame) (below : List CallFrame) :
    Attempt WasmError WasmVm := do
  let (li, frame) ← immediate decodeU32 code frame
  if li.toNat ≥ frame.localsCount then fail (.localIndexOob li)
  else do
    let val ← orFault (index vm.locals (frame.localsBase + li.toNat))
    push { vm with callStack := frame :: below } val

/-- `OP_LOCAL_SET`. -/
def execLocalSet (vm : WasmVm) (code : Bytes) (frame : CallFrame) (below : List CallFrame) :
    Attempt WasmError WasmVm := do
  let (li, frame) ← immediate decodeU32 code frame
  if li.toNat ≥ frame.localsCount then fail (.localIndexOob li)
  else do
    let (val, vm) ← pop { vm with callStack := frame :: below }
    let locals ← orFault (store vm.locals (frame.localsBase + li.toNat) val)
    return { vm with locals := locals }

/-- `OP_I32_CONST`. -/
def execConst (vm : WasmVm) (code : Bytes) (frame : CallFrame) (below : List CallFrame) :
    Attempt WasmError WasmVm := do
  let (val, frame) ← immediate decodeI32 code frame
  push { vm with callStack := frame :: below } val

/-- `OP_I32_ADD`, `OP_I32_SUB` and `OP_I32_MUL`, by their wrapping operation. -/
def binary (op : Int32 → Int32 → Int32) (vm : WasmVm) : Attempt WasmError WasmVm := do
  let (b, vm) ← vm.pop
  let (a, vm) ← vm.pop
  vm.push (op a b)

/-- Execute an instruction. The frame on top of `below` has its `ip` behind the opcode. -/
def execInsn (m : WasmModule) (vm : WasmVm) (code : Bytes) (frame : CallFrame)
    (below : List CallFrame) (opcode : UInt8) :
    Attempt WasmError (ControlFlow WasmVm (List Int32)) :=
  let current : WasmVm := { vm with callStack := frame :: below }
  if opcode = opNop then .ok (.again current)
  else if opcode = opUnreachable then fail .trap
  else if opcode = opReturn ∨ opcode = opEnd then returned m current
  else if opcode = opCall then do return .again (← execCall m vm code frame below)
  else if opcode = opLocalGet then do return .again (← execLocalGet vm code frame below)
  else if opcode = opLocalSet then do return .again (← execLocalSet vm code frame below)
  else if opcode = opI32Const then do return .again (← execConst vm code frame below)
  else if opcode = opI32Add then do return .again (← binary (· + ·) current)
  else if opcode = opI32Sub then do return .again (← binary (· - ·) current)
  else if opcode = opI32Mul then do return .again (← binary (· * ·) current)
  else fail (.unknownOpcode opcode)

/-- One round of the interpreter. A function ends where its code does. -/
def step (m : WasmModule) (vm : WasmVm) : Attempt WasmError (ControlFlow WasmVm (List Int32)) :=
  match vm.callStack with
  | [] => .ok (.stop vm.stack)
  | frame :: below => do
    let body ← orFault (index m.bodies frame.funcIdx.toNat)
    if frame.ip ≥ body.code.length then returned m vm
    else do
      let opcode ← orFault (index body.code frame.ip)
      execInsn m vm body.code { frame with ip := frame.ip + 1 } below opcode

end WasmVm

end MerlionKernel.Wasm
