import MerlionKernel.Rust.Bytes

/-!
# LZ77 compression

The compressor of `compress.rs`. A sliding-window search turns the input into a list
of tokens, each a literal byte or a back-reference into the bytes already produced; the
tokens are written in blocks of eight behind a byte of flags. The decoder carries no
token count: it stops where the buffer ends, possibly in the middle of a block.
-/

namespace MerlionKernel.Compress

open Rust

/-- `WINDOW_SIZE`. -/
def windowSize : Nat := 4096

/-- `MIN_MATCH_LEN`. -/
def minMatchLen : Nat := 3

/-- `MAX_MATCH_LEN`. -/
def maxMatchLen : Nat := 258

/-- `Token`: a literal byte (`Literal`), or the instruction to copy `length` bytes
starting `offset` bytes back in the output (`Match`). -/
inductive Token
  | literal (b : UInt8)
  | backRef (offset length : Nat)

/-! ### The search -/

/-- One round of the inner loop of `find_longest_match`: compare one more byte of the
candidate with the input. -/
def matchRound (data : Bytes) (candidate pos maxLen len : Nat) : Exec (ControlFlow Nat Nat) := do
  if len < maxLen then
    let old ← index data (candidate + len)
    let new ← index data (pos + len)
    if old = new then return .again (len + 1) else return .stop len
  else return .stop len

/-- The number of bytes, at most `maxLen`, on which `candidate` and `pos` agree. -/
def matchLen (data : Bytes) (candidate pos maxLen : Nat) : Exec Nat :=
  loop (matchRound data candidate pos maxLen) (maxMatchLen + 1) 0

/-- The local variables of `find_longest_match` across its outer loop. -/
structure Search where
  candidate : Nat
  bestOffset : Nat
  bestLength : Nat

/-- One round of the outer loop of `find_longest_match`. -/
def searchRound (data : Bytes) (pos maxLen : Nat) (s : Search) :
    Exec (ControlFlow Search (Nat × Nat)) := do
  if s.candidate < pos then
    let len ← matchLen data s.candidate pos maxLen
    if minMatchLen ≤ len ∧ s.bestLength < len % 2 ^ 16 then
      let offset := (pos - s.candidate) % 2 ^ 16
      -- No later candidate can match more than `maxLen` bytes.
      if len = maxLen then return .stop (offset, len % 2 ^ 16)
      else return .again ⟨s.candidate + 1, offset, len % 2 ^ 16⟩
    else return .again { s with candidate := s.candidate + 1 }
  else return .stop (s.bestOffset, s.bestLength)

/-- `find_longest_match`. -/
def findLongestMatch (data : Bytes) (pos : Nat) : Exec (Nat × Nat) := do
  let windowStart := if windowSize ≤ pos then pos - windowSize else 0
  let remaining ← sub data.length pos
  let maxLen := if remaining < maxMatchLen then remaining else maxMatchLen
  loop (searchRound data pos maxLen) (windowSize + 1) ⟨windowStart, 0, 0⟩

/-- One round of `tokenise`, on the position reached and the tokens so far. -/
def tokeniseRound (data : Bytes) (s : Nat × List Token) :
    Exec (ControlFlow (Nat × List Token) (List Token)) := do
  if s.1 < data.length then
    let (offset, length) ← findLongestMatch data s.1
    if minMatchLen ≤ length then
      return .again (s.1 + length, s.2 ++ [.backRef offset length])
    else
      let b ← index data s.1
      return .again (s.1 + 1, s.2 ++ [.literal b])
  else return .stop s.2

/-- `tokenise`. -/
def tokenise (data : Bytes) : Exec (List Token) :=
  loop (tokeniseRound data) (data.length + 1) (0, [])

/-! ### The token stream -/

/-- Set the flag of token `i + bit` if it is a back-reference. -/
def flagRound (tokens : List Token) (i flags bit : Nat) : Exec Nat := do
  match ← index tokens (i + bit) with
  | .backRef _ _ => return flags ||| (1 <<< bit)
  | .literal _ => return flags

/-- Emit the payload of token `i + bit`. -/
def payloadRound (tokens : List Token) (i : Nat) (out : Bytes) (bit : Nat) : Exec Bytes := do
  match ← index tokens (i + bit) with
  | .literal b => return out ++ [b]
  | .backRef offset length =>
    let extra ← sub length minMatchLen
    -- Two bytes for the offset and one for the length, each by an `as` cast.
    return out ++ [.ofNat offset, .ofNat (offset >>> 8), .ofNat extra]

/-- One round of `encode_tokens`: a block of at most eight tokens. -/
def encodeRound (tokens : List Token) (s : Nat × Bytes) :
    Exec (ControlFlow (Nat × Bytes) Bytes) := do
  if s.1 < tokens.length then
    let blockLen := if tokens.length - s.1 < 8 then tokens.length - s.1 else 8
    let flags ← (List.range blockLen).foldlM (flagRound tokens s.1) 0
    let out ← (List.range blockLen).foldlM (payloadRound tokens s.1) (s.2 ++ [.ofNat flags])
    return .again (s.1 + blockLen, out)
  else return .stop s.2

/-- `encode_tokens`. -/
def encodeTokens (tokens : List Token) : Exec Bytes :=
  loop (encodeRound tokens) (tokens.length + 1) (0, [])

/-- The loop of `decode_tokens` over the bits of one flags byte. A block that the buffer
cuts short ends the loop early. -/
def decodeBlock (data : Bytes) (flags : Nat) :
    List Nat → Nat × List Token → Exec (Nat × List Token)
  | [], s => pure s
  | bit :: bits, (pos, tokens) => do
    if data.length ≤ pos then return (pos, tokens)
    else if flags &&& (1 <<< bit) ≠ 0 then
      -- A back-reference without its three bytes is given up, and the round with it.
      if data.length ≤ pos + 2 then return (pos, tokens)
      else
        let low ← index data pos
        let high ← index data (pos + 1)
        let extra ← index data (pos + 2)
        let offset := low.toNat ||| (high.toNat <<< 8)
        decodeBlock data flags bits
          (pos + 3, tokens ++ [.backRef offset (extra.toNat + minMatchLen)])
    else
      let b ← index data pos
      decodeBlock data flags bits (pos + 1, tokens ++ [.literal b])

/-- One round of `decode_tokens`. -/
def decodeRound (data : Bytes) (s : Nat × List Token) :
    Exec (ControlFlow (Nat × List Token) (List Token)) := do
  if s.1 < data.length then
    let flags ← index data s.1
    let next ← decodeBlock data flags.toNat (List.range 8) (s.1 + 1, s.2)
    return .again next
  else return .stop s.2

/-- `decode_tokens`. -/
def decodeTokens (data : Bytes) : Exec (List Token) :=
  loop (decodeRound data) (data.length + 1) (0, [])

/-! ### Compression and decompression -/

/-- `compress`. -/
def compress (data : Bytes) : Exec Bytes := do
  let tokens ← tokenise data
  encodeTokens tokens

/-- Copy one byte of the output to its end; the bytes copied feed later copies. -/
def copyByte (start : Nat) (out : Bytes) (i : Nat) : Exec Bytes := do
  let byte ← index out (start + i)
  return out ++ [byte]

/-- Replay one token on the output. -/
def replayToken (out : Bytes) : Token → Exec Bytes
  | .literal b => return out ++ [b]
  | .backRef offset length =>
    (List.range length).foldlM (copyByte (wrappingSub out.length offset)) out

/-- `decompress`. -/
def decompress (data : Bytes) : Exec Bytes := do
  let tokens ← decodeTokens data
  tokens.foldlM replayToken []

end MerlionKernel.Compress
