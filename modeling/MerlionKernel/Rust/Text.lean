import MerlionKernel.Rust.Bytes
import Mathlib.Tactic.SplitIfs

/-!
# Text as UTF-8 bytes

A Rust `str` is a sequence of Unicode scalar values held as UTF-8, as a Lean `String`
is. `asBytes` is `str::as_bytes` and `fromUtf8` is `core::str::from_utf8`; decoding
accepts exactly the encodings of strings.

A string built character by character has the bytes `utf8` of its characters. The
characters below 128 are one byte each.
-/

namespace MerlionKernel.Rust

/-- The UTF-8 bytes of a string. -/
def asBytes (s : String) : Bytes := s.toByteArray.data.toList

/-- The string with the given UTF-8 bytes, if they are well formed. -/
def fromUtf8 (bs : Bytes) : Option String := String.fromUTF8? ⟨bs.toArray⟩

/-- Decimal digits behind an optional plus sign, if the number fits into so many bits. -/
def parseUnsigned (bits : Nat) (s : String) : Option Nat :=
  let digits := if s.toList.head? = some '+' then s.toList.tail else s.toList
  let n := digits.foldl (fun n c => n * 10 + (c.toNat - '0'.toNat)) 0
  if digits ≠ [] ∧ digits.all Char.isDigit ∧ n < 2 ^ bits then some n else none

/-- `s.parse::<u8>()`. -/
def parseU8 : String → Option Nat := parseUnsigned 8

/-- `s.parse::<u32>()`. -/
def parseU32 : String → Option Nat := parseUnsigned 32

theorem asBytes_inj {s t : String} : asBytes s = asBytes t ↔ s = t := by
  constructor
  · intro h
    apply String.toByteArray_inj.mp
    exact ByteArray.ext (Array.toList_inj.mp h)
  · rintro rfl
    rfl

/-- Decoding succeeds on the encoding of a string, and only there. -/
theorem fromUtf8_eq_some_iff {bs : Bytes} {s : String} :
    fromUtf8 bs = some s ↔ asBytes s = bs := by
  unfold fromUtf8 String.fromUTF8?
  split
  · rename_i hvalid
    rw [Option.some_inj]
    constructor
    · rintro rfl
      rfl
    · rintro rfl
      rfl
  · rename_i hinvalid
    refine ⟨fun h => absurd h (by simp), ?_⟩
    rintro rfl
    exact absurd s.isValidUTF8 hinvalid

@[simp] theorem fromUtf8_asBytes (s : String) : fromUtf8 (asBytes s) = some s :=
  fromUtf8_eq_some_iff.mpr rfl

/-- The 64-bit FNV-1a hash. -/
def fnv1a (bs : Bytes) : UInt64 :=
  bs.foldl (fun hash b => (hash ^^^ b.toUInt64) * 0x00000100000001B3) 0xcbf29ce484222325

/-! ### Characters -/

/-- The UTF-8 bytes of a list of characters. -/
def utf8 (cs : List Char) : Bytes := cs.flatMap String.utf8EncodeChar

@[simp] theorem utf8_cons (c : Char) (cs : List Char) :
    utf8 (c :: cs) = String.utf8EncodeChar c ++ utf8 cs := rfl

/-- The bytes of a string are those of its characters in order. -/
theorem asBytes_ofList (cs : List Char) : asBytes (String.ofList cs) = utf8 cs := by
  simp [asBytes, List.utf8Encode, utf8]

theorem utf8EncodeChar_of_lt {c : Char} (h : c.toNat < 128) :
    String.utf8EncodeChar c = [c.toUInt8] :=
  if_pos (Nat.le_of_lt_succ h)

theorem toNat_toUInt8 {c : Char} (h : c.toNat < 128) : c.toUInt8.toNat = c.toNat := by
  have hmod : c.toUInt8.toNat = c.toNat % 2 ^ 8 := UInt32.toNat_toUInt8 c.val
  rw [hmod, Nat.mod_eq_of_lt (by omega)]

end MerlionKernel.Rust
