import MerlionKernel.Rust.Bytes
import MerlionKernel.Rust.Each

/-!
# The packet filter machine

The classic BPF machine of `bpf.rs`: an accumulator, an index register, sixteen words of scratch
memory and forward jumps only. `BpfVm.new` checks a program before it is loaded; `BpfVm.run`
executes it on a packet. The source returns 0 from `run` for an instruction that it does not know
and for a zero divisor, as it does for a packet that a `RET` rejects; the model tells these apart.
-/

namespace MerlionKernel.Bpf

open Rust

/-! ### Instructions -/

def bpfLd : UInt16 := 0x00
def bpfLdx : UInt16 := 0x01
def bpfSt : UInt16 := 0x02
def bpfStx : UInt16 := 0x03
def bpfAlu : UInt16 := 0x04
def bpfJmp : UInt16 := 0x05
def bpfRet : UInt16 := 0x06
def bpfMisc : UInt16 := 0x07

def bpfW : UInt16 := 0x00
def bpfH : UInt16 := 0x08
def bpfB : UInt16 := 0x10

def bpfImm : UInt16 := 0x00
def bpfAbs : UInt16 := 0x20
def bpfInd : UInt16 := 0x40
def bpfMem : UInt16 := 0x60
def bpfLen : UInt16 := 0x80

def bpfAdd : UInt16 := 0x00
def bpfSub : UInt16 := 0x10
def bpfMul : UInt16 := 0x20
def bpfDiv : UInt16 := 0x30
def bpfOr : UInt16 := 0x40
def bpfAnd : UInt16 := 0x50
def bpfLsh : UInt16 := 0x60
def bpfRsh : UInt16 := 0x70
def bpfNeg : UInt16 := 0x80
def bpfMod : UInt16 := 0x90
def bpfXor : UInt16 := 0xa0

def bpfJa : UInt16 := 0x00
def bpfJeq : UInt16 := 0x10
def bpfJgt : UInt16 := 0x20
def bpfJge : UInt16 := 0x30
def bpfJset : UInt16 := 0x40

def bpfK : UInt16 := 0x00
def bpfX : UInt16 := 0x08

def bpfTax : UInt16 := 0x00
def bpfTxa : UInt16 := 0x80

/-- `BPF_MEMWORDS`. -/
def bpfMemwords : Nat := 16

/-- `MAX_INSNS`. -/
def maxInsns : Nat := 4096

/-- A classic BPF instruction. -/
structure BpfInsn where
  opcode : UInt16
  jt : UInt8
  jf : UInt8
  k : UInt32
  deriving DecidableEq

namespace BpfInsn

/-! The fields of an opcode. -/

def cls (insn : BpfInsn) : UInt16 := insn.opcode &&& 0x07
def size (insn : BpfInsn) : UInt16 := insn.opcode &&& 0x18
def mode (insn : BpfInsn) : UInt16 := insn.opcode &&& 0xe0
def op (insn : BpfInsn) : UInt16 := insn.opcode &&& 0xf0
def src (insn : BpfInsn) : UInt16 := insn.opcode &&& 0x08

end BpfInsn

/-! ### The check -/

/-- A loaded program. -/
structure BpfVm where
  program : List BpfInsn
  deriving DecidableEq

/-- The check of the instruction at position `i` of a program of `len` instructions. -/
def checkInsn (len i : Nat) (insn : BpfInsn) : Except String Unit := do
  if insn.cls = bpfJmp then
    if insn.op = bpfJa then
      if i + 1 + insn.k.toNat ≥ len then throw "jump target out of bounds"
    else if i + 1 + insn.jt.toNat ≥ len ∨ i + 1 + insn.jf.toNat ≥ len then
      throw "conditional jump target out of bounds"
  if insn.cls = bpfSt ∨ insn.cls = bpfStx then
    if insn.k.toNat ≥ bpfMemwords then throw "memory index out of bounds"
  if insn.cls = bpfAlu then
    if (insn.op = bpfDiv ∨ insn.op = bpfMod) ∧ insn.opcode &&& bpfX = 0 ∧ insn.k = 0 then
      throw "division by zero in constant"

/-- Load a program. -/
def BpfVm.new (program : List BpfInsn) : Except String BpfVm :=
  if program = [] then .error "empty program"
  else if program.length > maxInsns then .error "program too long"
  else do
    checkEnumerated (checkInsn program.length) 0 program
    match program.getLast? with
    | some last =>
      if last.cls ≠ bpfRet then .error "program does not end with RET" else .ok { program }
    | none => .error "empty program"

/-! ### The machine -/

/-- The registers, the position in the program and the scratch memory. -/
structure Machine where
  a : UInt32
  x : UInt32
  pc : Nat
  mem : List UInt32

/-- How a run ends: with a `RET`, with an early `return 0`, or after the last instruction. -/
inductive Verdict
  | ret (value : UInt32)
  | rejected
  | ranOut
  deriving DecidableEq

/-- The number that `run` returns. -/
def Verdict.value : Verdict → UInt32
  | .ret value => value
  | .rejected | .ranOut => 0

/-- The number at an offset of a packet, 0 beyond its end. -/
def loadPacket (pkt : Bytes) (off : Nat) (size : UInt16) : Exec UInt32 :=
  if size = bpfW then do return UInt32.ofNat (← readBe pkt off 4)
  else if size = bpfH then do return UInt32.ofNat (← readBe pkt off 2)
  else if size = bpfB then do
    if off ≥ pkt.length then return 0
    else return UInt32.ofNat (← index pkt off).toNat
  else return 0

/-- What an instruction that is no jump and no `RET` makes of the registers and the memory;
`none` where the source returns 0. -/
abbrev Effect := Exec (Option Machine)

/-- The scratch word that a `MEM` load reads, or the old value. -/
def loadMem (mem : List UInt32) (k old : UInt32) : Exec UInt32 :=
  if k.toNat < bpfMemwords then index mem k.toNat else return old

/-- `BPF_LD`. -/
def execLd (packet : Bytes) (insn : BpfInsn) (m : Machine) : Effect :=
  if insn.mode = bpfImm then return some { m with a := insn.k }
  else if insn.mode = bpfAbs then do
    let a ← loadPacket packet insn.k.toNat insn.size
    return some { m with a }
  else if insn.mode = bpfInd then do
    let off ← u32 (m.x.toNat + insn.k.toNat)
    let a ← loadPacket packet off insn.size
    return some { m with a }
  else if insn.mode = bpfMem then do
    let a ← loadMem m.mem insn.k m.a
    return some { m with a }
  else if insn.mode = bpfLen then return some { m with a := UInt32.ofNat packet.length }
  else return none

/-- `BPF_LDX`. -/
def execLdx (packet : Bytes) (insn : BpfInsn) (m : Machine) : Effect :=
  if insn.mode = bpfImm then return some { m with x := insn.k }
  else if insn.mode = bpfMem then do
    let x ← loadMem m.mem insn.k m.x
    return some { m with x }
  else if insn.mode = bpfLen then return some { m with x := UInt32.ofNat packet.length }
  else return none

/-- `BPF_ST` and `BPF_STX`, which differ in the register that is stored. -/
def execStore (value : UInt32) (insn : BpfInsn) (m : Machine) : Effect :=
  if insn.k.toNat < bpfMemwords then do
    let mem ← store m.mem insn.k.toNat value
    return some { m with mem }
  else return some m

/-- The second operand of an ALU or a jump instruction. -/
def operand (insn : BpfInsn) (m : Machine) : UInt32 := if insn.src = bpfX then m.x else insn.k

/-- A division or a remainder, of which a zero divisor is caught before. -/
def divide (f : Nat → Nat → Exec Nat) (a val : UInt32) : Exec (Option UInt32) :=
  if val = 0 then return none else return some (UInt32.ofNat (← f a.toNat val.toNat))

/-- The value of an ALU operation that cannot fail. -/
def wrappingValue (op : UInt16) (a val : UInt32) : Option UInt32 :=
  if op = bpfAdd then some (a + val)
  else if op = bpfSub then some (a - val)
  else if op = bpfMul then some (a * val)
  else if op = bpfAnd then some (a &&& val)
  else if op = bpfOr then some (a ||| val)
  else if op = bpfXor then some (a ^^^ val)
  else if op = bpfLsh then some (a <<< val)
  else if op = bpfRsh then some (a >>> val)
  else if op = bpfNeg then some (~~~a + 1)
  else none

/-- The value of an ALU operation. -/
def aluValue (op : UInt16) (a val : UInt32) : Exec (Option UInt32) :=
  if op = bpfDiv then divide div a val
  else if op = bpfMod then divide rem a val
  else return wrappingValue op a val

/-- `BPF_ALU`. -/
def execAlu (insn : BpfInsn) (m : Machine) : Effect := do
  let a ← aluValue insn.op m.a (operand insn m)
  return a.map fun a => { m with a }

/-- `BPF_MISC`. -/
def execMisc (insn : BpfInsn) (m : Machine) : Effect :=
  if insn.op = bpfTax then return some { m with x := m.a }
  else if insn.op = bpfTxa then return some { m with a := m.x }
  else return none

/-- The condition of a jump. -/
def jumps (op : UInt16) (a val : UInt32) : Bool :=
  if op = bpfJeq then a = val
  else if op = bpfJgt then a > val
  else if op = bpfJge then a ≥ val
  else if op = bpfJset then a &&& val ≠ 0
  else false

/-- The instructions that `BPF_JMP` skips. -/
def jumpOffset (insn : BpfInsn) (m : Machine) : Nat :=
  if insn.op = bpfJa then insn.k.toNat
  else if jumps insn.op m.a (operand insn m) then insn.jt.toNat
  else insn.jf.toNat

/-- The classes but `BPF_JMP` and `BPF_RET`. -/
def execInsn (packet : Bytes) (insn : BpfInsn) (m : Machine) : Effect :=
  if insn.cls = bpfLd then execLd packet insn m
  else if insn.cls = bpfLdx then execLdx packet insn m
  else if insn.cls = bpfSt then execStore m.a insn m
  else if insn.cls = bpfStx then execStore m.x insn m
  else if insn.cls = bpfAlu then execAlu insn m
  else if insn.cls = bpfMisc then execMisc insn m
  else return none

namespace BpfVm

/-- One round of the loop. -/
def round (vm : BpfVm) (packet : Bytes) (m : Machine) : Exec (ControlFlow Machine Verdict) :=
  if m.pc < vm.program.length then do
    let insn ← index vm.program m.pc
    if insn.cls = bpfJmp then do
      let pc ← u64 (m.pc + jumpOffset insn m)
      return .again { m with pc := ← u64 (pc + 1) }
    else if insn.cls = bpfRet then
      return .stop (.ret (if insn.size = bpfK then insn.k else m.a))
    else do
      match ← execInsn packet insn m with
      | none => return .stop .rejected
      | some m' => return .again { m' with pc := ← u64 (m'.pc + 1) }
  else return .stop .ranOut

/-- The machine before the first instruction. -/
def start : Machine := { a := 0, x := 0, pc := 0, mem := List.replicate bpfMemwords 0 }

/-- Execute the program on a packet. -/
def execute (vm : BpfVm) (packet : Bytes) : Exec Verdict :=
  loop (vm.round packet) (vm.program.length + 1) start

/-- The verdict on a packet: 0 rejects it, other values are the number of bytes to capture. -/
def run (vm : BpfVm) (packet : Bytes) : Exec UInt32 := do return (← vm.execute packet).value

end BpfVm

end MerlionKernel.Bpf
