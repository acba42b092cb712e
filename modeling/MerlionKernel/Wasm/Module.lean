import MerlionKernel.Rust.Text

/-!
# WebAssembly modules

The modules of `wasm.rs` as the machine gets them, and the numbers in their code. The parser of the
binary format is left out. Vectors may be of any length here; that the heap has an end is left out.
-/

namespace MerlionKernel.Wasm

open Rust

/-! ### Modules -/

/-- A value type. -/
inductive ValType
  | i32
  | i64

/-- A function signature. -/
structure FuncType where
  params : List ValType
  results : List ValType

/-- A function body: its declared locals and its code, without the final `end`. -/
structure FuncBody where
  locals : List ValType
  code : Bytes

/-- The sections of a module that the machine reads. -/
structure WasmModule where
  types : List FuncType
  funcTypeIndices : List UInt32
  bodies : List FuncBody

/-- What the machine returns for an error; the errors of the parser alone are left out. -/
inductive WasmError
  | unexpectedEof
  | funcIndexOob (idx : UInt32)
  | stackUnderflow
  | stackOverflow
  | callStackOverflow
  | trap
  | unknownOpcode (opcode : UInt8)
  | localIndexOob (idx : UInt32)

/-! ### Numbers -/

/-- The loop of `decode_u32`, at byte `i`. Its shifts are 0, 7, 14, 21 and 28, and the bits of the
last byte that are shifted out are lost. -/
def decodeU32Loop : Bytes → Nat → UInt32 → UInt32 → Except WasmError (UInt32 × Nat)
  | [], _, _, _ => .error .unexpectedEof
  | byte :: rest, i, result, shift =>
    let result := result ||| ((byte &&& 0x7F).toUInt32 <<< shift)
    if byte &&& 0x80 = 0 then .ok (result, i + 1)
    else
      let shift := shift + 7
      if shift ≥ 35 then .error .unexpectedEof
      else decodeU32Loop rest (i + 1) result shift

/-- Decode an unsigned LEB128 value, with the number of bytes consumed. -/
def decodeU32 (data : Bytes) : Except WasmError (UInt32 × Nat) := decodeU32Loop data 0 0 0

/-- The loop of `decode_i32`, at byte `i`. -/
def decodeI32Loop : Bytes → Nat → Int32 → UInt32 → Except WasmError (Int32 × Nat)
  | [], _, _, _ => .error .unexpectedEof
  | byte :: rest, i, result, shift =>
    let result := result ||| ((byte &&& 0x7F).toUInt32.toInt32 <<< shift.toInt32)
    let shift := shift + 7
    if byte &&& 0x80 = 0 then
      -- The last byte has the sign; a fifth one has filled the word.
      if shift < 32 ∧ byte &&& 0x40 ≠ 0 then
        .ok (result ||| (~~~(0 : Int32) <<< shift.toInt32), i + 1)
      else .ok (result, i + 1)
    else if shift ≥ 35 then .error .unexpectedEof
    else decodeI32Loop rest (i + 1) result shift

/-- Decode a signed LEB128 value, with the number of bytes consumed. -/
def decodeI32 (data : Bytes) : Except WasmError (Int32 × Nat) := decodeI32Loop data 0 0 0

/-- The end of a body. -/
def opEnd : UInt8 := 0x0B

end MerlionKernel.Wasm
