import MerlionKernel.Rust.Bytes

/-!
# SHA-256 and HMAC

The hash and the keyed hash of `crypto.rs`. A digest is a block of 32 bytes.
-/

namespace MerlionKernel.Crypto

open Rust

/-- The round constants. -/
def roundConstants : List UInt32 :=
  [0x428a2f98, 0x71374491, 0xb5c0fbcf, 0xe9b5dba5, 0x3956c25b, 0x59f111f1, 0x923f82a4, 0xab1c5ed5,
    0xd807aa98, 0x12835b01, 0x243185be, 0x550c7dc3, 0x72be5d74, 0x80deb1fe, 0x9bdc06a7, 0xc19bf174,
    0xe49b69c1, 0xefbe4786, 0x0fc19dc6, 0x240ca1cc, 0x2de92c6f, 0x4a7484aa, 0x5cb0a9dc, 0x76f988da,
    0x983e5152, 0xa831c66d, 0xb00327c8, 0xbf597fc7, 0xc6e00bf3, 0xd5a79147, 0x06ca6351, 0x14292967,
    0x27b70a85, 0x2e1b2138, 0x4d2c6dfc, 0x53380d13, 0x650a7354, 0x766a0abb, 0x81c2c92e, 0x92722c85,
    0xa2bfe8a1, 0xa81a664b, 0xc24b8b70, 0xc76c51a3, 0xd192e819, 0xd6990624, 0xf40e3585, 0x106aa070,
    0x19a4c116, 0x1e376c08, 0x2748774c, 0x34b0bcb5, 0x391c0cb3, 0x4ed8aa4a, 0x5b9cca4f, 0x682e6ff3,
    0x748f82ee, 0x78a5636f, 0x84c87814, 0x8cc70208, 0x90befffa, 0xa4506ceb, 0xbef9a3f7, 0xc67178f2]

/-- Rotate to the right. -/
def rotr (x n : UInt32) : UInt32 := (x >>> n) ||| (x <<< (32 - n))

/-- Choose from `y` where `x` is set, from `z` elsewhere. -/
def ch (x y z : UInt32) : UInt32 := (x &&& y) ^^^ (~~~x &&& z)

/-- The majority of three. -/
def maj (x y z : UInt32) : UInt32 := (x &&& y) ^^^ (x &&& z) ^^^ (y &&& z)

def bigSigma0 (x : UInt32) : UInt32 := rotr x 2 ^^^ rotr x 13 ^^^ rotr x 22

def bigSigma1 (x : UInt32) : UInt32 := rotr x 6 ^^^ rotr x 11 ^^^ rotr x 25

def smallSigma0 (x : UInt32) : UInt32 := rotr x 7 ^^^ rotr x 18 ^^^ (x >>> 3)

def smallSigma1 (x : UInt32) : UInt32 := rotr x 17 ^^^ rotr x 19 ^^^ (x >>> 10)

/-- The data, a byte 0x80, zeros up to eight bytes before the end of a block of 64, and the number
of bits. -/
def sha256Pad (data : Bytes) : Bytes :=
  data ++ (0x80 :: (List.replicate ((119 - data.length % 64) % 64) 0 ++
    toBe 8 (data.length * 8 % 2 ^ 64)))

/-- The eight words of the hash state. -/
structure HashState where
  a : UInt32
  b : UInt32
  c : UInt32
  d : UInt32
  e : UInt32
  f : UInt32
  g : UInt32
  h : UInt32

/-- `H_INIT`. -/
def hashInit : HashState where
  a := 0x6a09e667
  b := 0xbb67ae85
  c := 0x3c6ef372
  d := 0xa54ff53a
  e := 0x510e527f
  f := 0x9b05688c
  g := 0x1f83d9ab
  h := 0x5be0cd19

/-- Extend the message schedule by `n` words; the last word so far is the first one given. -/
def extendSchedule : Nat → List UInt32 → List UInt32
  | 0, w => w
  | n + 1, w =>
    extendSchedule n
      ((smallSigma1 (w.getD 1 0) + w.getD 6 0 + smallSigma0 (w.getD 14 0) + w.getD 15 0) :: w)

/-- The 64 words of the message schedule of a block. -/
def schedule (block : Bytes) : List UInt32 :=
  let words := (List.range 16).map fun i => UInt32.ofNat (fromBe (window block (4 * i) 4))
  (extendSchedule 48 words.reverse).reverse

/-- One of the 64 rounds. -/
def compressRound (s : HashState) (kw : UInt32 × UInt32) : HashState :=
  let t1 := s.h + bigSigma1 s.e + ch s.e s.f s.g + kw.1 + kw.2
  let t2 := bigSigma0 s.a + maj s.a s.b s.c
  ⟨t1 + t2, s.a, s.b, s.c, s.d + t1, s.e, s.f, s.g⟩

/-- Process one block. -/
def sha256Compress (state : HashState) (block : Bytes) : HashState :=
  let s := (roundConstants.zip (schedule block)).foldl compressRound state
  ⟨state.a + s.a, state.b + s.b, state.c + s.c, state.d + s.d, state.e + s.e, state.f + s.f,
    state.g + s.g, state.h + s.h⟩

/-- The words of a hash state, most significant byte first. -/
def HashState.bytes (s : HashState) : Block 32 :=
  ⟨[s.a, s.b, s.c, s.d, s.e, s.f, s.g, s.h].flatMap fun w => toBe 4 w.toNat, by simp⟩

/-- The digest of some bytes. -/
def sha256 (data : Bytes) : Block 32 :=
  let padded := sha256Pad data
  let blocks := (List.range (padded.length / 64)).map fun i => window padded (64 * i) 64
  (blocks.foldl sha256Compress hashInit).bytes

example : (sha256 [0x61, 0x62, 0x63]).1.take 4 = [0xba, 0x78, 0x16, 0xbf] := by decide +kernel

/-- The key of HMAC, brought to the size of a block. -/
def keyBlock (key : Bytes) : Bytes :=
  let key := if key.length > 64 then (sha256 key).1 else key
  key ++ List.replicate (64 - key.length) 0

/-- The keyed hash of some bytes. -/
def hmacSha256 (key data : Bytes) : Block 32 :=
  let inner := sha256 ((keyBlock key).map (· ^^^ 0x36) ++ data)
  sha256 ((keyBlock key).map (· ^^^ 0x5c) ++ inner.1)

end MerlionKernel.Crypto
