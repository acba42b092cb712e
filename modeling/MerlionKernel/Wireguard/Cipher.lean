import MerlionKernel.Crypto.Sha256

/-!
# The cipher of the tunnel

Authenticated encryption of `wireguard.rs`: the ChaCha20 key stream, and a tag of 16 bytes over the
associated data and the ciphertext. Encrypting and decrypting are the same exclusive or, so a
ciphertext is read back under every key and counter that give the same key stream.
-/

namespace MerlionKernel.Wireguard

open Rust Crypto

/-! ### ChaCha20 -/

/-- The sixteen words of a block. -/
abbrev Words := Vector UInt32 16

/-- Rotate to the left. -/
def rotateLeft (x n : UInt32) : UInt32 := (x <<< n) ||| (x >>> (32 - n))

/-- The quarter round. -/
def qr (s : Words) (a b c d : Fin 16) : Words :=
  let s := setAt s a (s.get a + s.get b)
  let s := setAt s d (rotateLeft (s.get d ^^^ s.get a) 16)
  let s := setAt s c (s.get c + s.get d)
  let s := setAt s b (rotateLeft (s.get b ^^^ s.get c) 12)
  let s := setAt s a (s.get a + s.get b)
  let s := setAt s d (rotateLeft (s.get d ^^^ s.get a) 8)
  let s := setAt s c (s.get c + s.get d)
  setAt s b (rotateLeft (s.get b ^^^ s.get c) 7)

/-- Four column rounds and four diagonal rounds. -/
def doubleRound (w : Words) : Words :=
  let w := qr w 0 4 8 12
  let w := qr w 1 5 9 13
  let w := qr w 2 6 10 14
  let w := qr w 3 7 11 15
  let w := qr w 0 5 10 15
  let w := qr w 1 6 11 12
  let w := qr w 2 7 8 13
  qr w 3 4 9 14

/-- The block of a state. -/
def chacha20Block (state : Words) : Words :=
  Vector.zipWith (· + ·) (doubleRound^[10] state) state

/-- The bytes of a block. -/
def blockBytes (w : Words) : Bytes := w.toList.flatMap fun word => toLe 4 word.toNat

/-- The first bytes of the blocks of a state, with the block counter going up. -/
def chacha20Keystream (initialState : Words) (len : Nat) : Bytes :=
  ((List.range ((len + 63) / 64)).flatMap fun i =>
    blockBytes (chacha20Block
      (setAt initialState 12 (initialState.get 12 + UInt32.ofNat i)))).take len

/-- A key: 32 bytes. -/
abbrev Key := Block 32

/-- The state for a key and a message counter; the block counter starts at 1. -/
def initialState (key : Key) (nonce : Nat) : Words :=
  let word i := UInt32.ofNat (fromLe (window key.1 (4 * i) 4))
  #v[0x61707865, 0x3320646e, 0x79622d32, 0x6b206574, word 0, word 1, word 2, word 3, word 4,
    word 5, word 6, word 7, 1, 0, UInt32.ofNat (nonce % 2 ^ 32), UInt32.ofNat (nonce / 2 ^ 32)]

/-- The key stream of a key and a message counter. -/
def keystream (key : Key) (nonce len : Nat) : Bytes :=
  chacha20Keystream (initialState key nonce) len

theorem length_blockBytes (w : Words) : (blockBytes w).length = 64 := by
  simp [blockBytes, List.length_flatMap]

theorem length_keystream (key : Key) (nonce len : Nat) :
    (keystream key nonce len).length = len := by
  simp only [keystream, chacha20Keystream, List.length_take, List.length_flatMap,
    length_blockBytes, List.map_const', List.length_range, List.sum_replicate_nat]
  omega

/-! ### Exclusive or -/

/-- The exclusive or of two byte strings. -/
def xor (bs ks : Bytes) : Bytes := List.zipWith (· ^^^ ·) bs ks

theorem length_xor {bs ks : Bytes} (h : ks.length = bs.length) :
    (xor bs ks).length = bs.length := by
  rw [xor, List.length_zipWith, h, min_self]

/-- A second stream takes the place of the plaintext exactly when it is the first one. -/
theorem xor_xor_eq_iff {bs ks ks' : Bytes} (h : ks.length = bs.length)
    (h' : ks'.length = bs.length) : xor (xor bs ks) ks' = bs ↔ ks' = ks := by
  induction bs generalizing ks ks' with
  | nil =>
    rw [List.length_eq_zero_iff.mp h, List.length_eq_zero_iff.mp h']
    exact ⟨fun _ => rfl, fun _ => rfl⟩
  | cons b bs ih =>
    obtain ⟨k, ks, rfl⟩ := List.exists_cons_of_length_eq_add_one h
    obtain ⟨k', ks', rfl⟩ := List.exists_cons_of_length_eq_add_one h'
    have hhead : b ^^^ k ^^^ k' = b ↔ k' = k := by
      constructor
      · intro hb
        have hkk : k ^^^ k' = 0 := by
          have := congrArg (b ^^^ ·) hb
          simpa [← UInt8.xor_assoc] using this
        exact (UInt8.xor_eq_zero_iff.mp hkk).symm
      · rintro rfl
        rw [UInt8.xor_assoc, UInt8.xor_self, UInt8.xor_zero]
    simp only [xor, List.zipWith_cons_cons, List.cons.injEq]
    exact and_congr hhead (ih (by simpa using h) (by simpa using h'))

/-! ### Encryption with a tag -/

/-- The tag of a message: its keyed hash, cut to 16 bytes. -/
def computeMac (key : Key) (aad ct : Bytes) : Bytes := (hmacSha256 key.1 (aad ++ ct)).1.take 16

theorem length_computeMac (key : Key) (aad ct : Bytes) : (computeMac key aad ct).length = 16 := by
  rw [computeMac, List.length_take, (hmacSha256 key.1 (aad ++ ct)).2]
  rfl

/-- Encrypt, with the tag at the end. -/
def aeadEncrypt (key : Key) (nonce : Nat) (plaintext aad : Bytes) : Bytes :=
  let ciphertext := xor plaintext (keystream key nonce plaintext.length)
  ciphertext ++ computeMac key aad ciphertext

/-- Check the tag and decrypt. -/
def aeadDecrypt (key : Key) (nonce : Nat) (ciphertext aad : Bytes) : Option Bytes :=
  if ciphertext.length < 16 then none
  else
    let ctLen := ciphertext.length - 16
    let ct := ciphertext.take ctLen
    if ciphertext.drop ctLen ≠ computeMac key aad ct then none
    else some (xor ct (keystream key nonce ctLen))

/-- The last 16 bytes are the tag of the others. -/
def Verifies (key : Key) (aad body : Bytes) : Prop :=
  16 ≤ body.length ∧
    body.drop (body.length - 16) = computeMac key aad (body.take (body.length - 16))

instance (key : Key) (aad body : Bytes) : Decidable (Verifies key aad body) :=
  inferInstanceAs (Decidable (_ ∧ _))

/-- Bytes are decrypted if they end in the tag of the others. The counter does not matter for
this, only for the text. -/
theorem aeadDecrypt_eq (key : Key) (nonce : Nat) (body aad : Bytes) :
    aeadDecrypt key nonce body aad =
      if Verifies key aad body then
        some (xor (body.take (body.length - 16)) (keystream key nonce (body.length - 16)))
      else none := by
  unfold aeadDecrypt
  by_cases hlen : body.length < 16
  · have hverifies : ¬ Verifies key aad body := fun h => absurd h.1 (by omega)
    rw [if_pos hlen, if_neg hverifies]
  rw [if_neg hlen]
  dsimp only
  by_cases htag : body.drop (body.length - 16) = computeMac key aad (body.take (body.length - 16))
  · have hverifies : Verifies key aad body := ⟨by omega, htag⟩
    rw [if_neg (not_not_intro htag), if_pos hverifies]
  · have hverifies : ¬ Verifies key aad body := fun h => htag h.2
    rw [if_pos htag, if_neg hverifies]

section Encrypted

variable (key : Key) (nonce : Nat) (plaintext aad : Bytes)

theorem length_aeadEncrypt :
    (aeadEncrypt key nonce plaintext aad).length = plaintext.length + 16 := by
  rw [aeadEncrypt, List.length_append, length_computeMac,
    length_xor (length_keystream key nonce plaintext.length)]

/-- The part before the tag, and the tag. -/
theorem aeadEncrypt_parts :
    (aeadEncrypt key nonce plaintext aad).take ((aeadEncrypt key nonce plaintext aad).length - 16) =
        xor plaintext (keystream key nonce plaintext.length) ∧
      (aeadEncrypt key nonce plaintext aad).drop
          ((aeadEncrypt key nonce plaintext aad).length - 16) =
        computeMac key aad (xor plaintext (keystream key nonce plaintext.length)) := by
  have hlen := length_xor (length_keystream key nonce plaintext.length)
  rw [length_aeadEncrypt, Nat.add_sub_cancel]
  constructor
  · conv_lhs => rw [← hlen]
    exact List.take_left
  · conv_lhs => rw [← hlen]
    exact List.drop_left

/-- What was encrypted verifies under a key that gives the same tag. -/
theorem verifies_aeadEncrypt (key' : Key) (aad' : Bytes) :
    Verifies key' aad' (aeadEncrypt key nonce plaintext aad) ↔
      computeMac key aad (xor plaintext (keystream key nonce plaintext.length)) =
        computeMac key' aad' (xor plaintext (keystream key nonce plaintext.length)) := by
  obtain ⟨htake, hdrop⟩ := aeadEncrypt_parts key nonce plaintext aad
  rw [Verifies, htake, hdrop, length_aeadEncrypt]
  exact and_iff_right (Nat.le_add_left 16 _)

end Encrypted

end MerlionKernel.Wireguard
