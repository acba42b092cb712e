import MerlionKernel.Rust.Text

/-!
# Base64

The encoder and the decoder of `encoding.rs` for the standard alphabet. The encoder writes four
characters for every three bytes, and pads the last group. The decoder takes its input apart in
groups of four and treats each of them as if it were the last: `=` is accepted in the third and
fourth place of any group, also in the third alone, and the bits that a padded group has to spare
are not looked at. What it accepts and the encoder gives back are the canonical strings.
-/

namespace MerlionKernel.Encoding

open Rust

/-- `DecodeError`, as far as `base64_decode` returns it. -/
inductive DecodeError
  | invalidByte (b : UInt8)
  | invalidLength
  deriving DecidableEq

/-- `b'='`. -/
abbrev pad : UInt8 := 61

/-- `B64_CHARS`. -/
def b64Chars : Bytes :=
  utf8 "ABCDEFGHIJKLMNOPQRSTUVWXYZabcdefghijklmnopqrstuvwxyz0123456789+/".toList

/-- `b64_decode_char`. -/
def b64DecodeChar (c : UInt8) : Except DecodeError Nat :=
  if 65 ≤ c ∧ c ≤ 90 then .ok (c.toNat - 65)
  else if 97 ≤ c ∧ c ≤ 122 then .ok (c.toNat - 97 + 26)
  else if 48 ≤ c ∧ c ≤ 57 then .ok (c.toNat - 48 + 52)
  else if c = 43 then .ok 62
  else if c = 47 then .ok 63
  else .error (.invalidByte c)

/-- `B64_CHARS[v & 0x3F]`; the table has 64 characters. -/
def b64Char (v : Nat) : UInt8 := b64Chars.getD (v &&& 0x3F) 0

/-- The three bytes of a chunk in one number. -/
def triple (b₀ b₁ b₂ : UInt8) : Nat := (b₀.toNat <<< 16 ||| b₁.toNat <<< 8) ||| b₂.toNat

/-- The loop of `base64_encode` over the chunks. -/
def encodeChunks : Bytes → Bytes
  | [] => []
  | [b₀] =>
    [b64Char (triple b₀ 0 0 >>> 18), b64Char (triple b₀ 0 0 >>> 12), pad, pad]
  | [b₀, b₁] =>
    [b64Char (triple b₀ b₁ 0 >>> 18), b64Char (triple b₀ b₁ 0 >>> 12),
      b64Char (triple b₀ b₁ 0 >>> 6), pad]
  | b₀ :: b₁ :: b₂ :: rest =>
    b64Char (triple b₀ b₁ b₂ >>> 18) :: b64Char (triple b₀ b₁ b₂ >>> 12) ::
      b64Char (triple b₀ b₁ b₂ >>> 6) :: b64Char (triple b₀ b₁ b₂) :: encodeChunks rest

/-- `base64_encode`. -/
def base64Encode (data : Bytes) : String :=
  String.ofList ((encodeChunks data).map fun b => Char.ofNat b.toNat)

/-- The value of the third or fourth character of a group, where padding counts as zero. -/
def b64DecodePadded (c : UInt8) : Except DecodeError Nat :=
  if c ≠ pad then b64DecodeChar c else .ok 0

/-- What `base64_decode` pushes for a group that holds `triple`. -/
def pushed (c₂ c₃ : UInt8) (triple : Nat) : Bytes :=
  let padding := (if c₂ = pad then 1 else 0) + if c₃ = pad then 1 else 0
  UInt8.ofNat (triple >>> 16) ::
    ((if padding < 2 then [UInt8.ofNat (triple >>> 8)] else []) ++
      if padding = 0 then [UInt8.ofNat triple] else [])

/-- The loop of `base64_decode` over the groups. -/
def decodeChunks : Bytes → Except DecodeError Bytes
  | c₀ :: c₁ :: c₂ :: c₃ :: rest => do
    let v₀ ← b64DecodeChar c₀
    let v₁ ← b64DecodeChar c₁
    let v₂ ← b64DecodePadded c₂
    let v₃ ← b64DecodePadded c₃
    let bytes ← decodeChunks rest
    return pushed c₂ c₃ (((v₀ <<< 18 ||| v₁ <<< 12) ||| v₂ <<< 6) ||| v₃) ++ bytes
  | _ => return []

/-- `base64_decode`. -/
def base64Decode (s : String) : Except DecodeError Bytes :=
  let input := asBytes s
  if input = [] then .ok []
  else if input.length % 4 ≠ 0 then .error .invalidLength
  else decodeChunks input

/-! ### Single characters -/

theorem b64DecodeChar_b64Char {v : Nat} (h : v < 64) : b64DecodeChar (b64Char v) = .ok v := by
  revert v
  decide +kernel

theorem b64Char_lt (v : Nat) : b64Char v < 128 ∧ b64Char v ≠ pad := by
  have hall : ∀ i < 64, b64Chars.getD i 0 < 128 ∧ b64Chars.getD i 0 ≠ pad := by decide +kernel
  exact hall _ (Nat.lt_succ_of_le Nat.and_le_right)

theorem b64Char_mod (v : Nat) : b64Char v = b64Char (v % 64) := by
  unfold b64Char
  rw [Nat.and_two_pow_sub_one_eq_mod v 6, Nat.and_two_pow_sub_one_eq_mod _ 6, Nat.mod_mod]

/-- The characters of the alphabet are those of the values. -/
theorem of_b64DecodeChar {c : UInt8} {v : Nat} (h : b64DecodeChar c = .ok v) :
    v < 64 ∧ b64Char v = c := by
  have hall : ∀ c : UInt8,
      (b64DecodeChar c).toOption.all fun v => decide (v < 64 ∧ b64Char v = c) :=
    forall_uint8 (by decide +kernel)
  have hc := hall c
  rw [h] at hc
  exact of_decide_eq_true hc

/-! ### Groups -/

/-- Two numbers side by side, the lower one of `j` bits. -/
theorem shiftLeft_or_shiftLeft {a b j : Nat} (hb : b < 2 ^ j) (k : Nat) :
    a <<< (k + j) ||| b <<< k = (a * 2 ^ j + b) <<< k := by
  rw [Nat.add_comm k j, Nat.shiftLeft_add, ← Nat.shiftLeft_or_distrib,
    ← Nat.shiftLeft_add_eq_or_of_lt hb, Nat.shiftLeft_eq a]

theorem triple_eq (b₀ b₁ b₂ : UInt8) :
    triple b₀ b₁ b₂ = b₀.toNat * 65536 + b₁.toNat * 256 + b₂.toNat := by
  have h₁ := b₁.toNat_lt
  have h₂ := b₂.toNat_lt
  rw [triple, shiftLeft_or_shiftLeft (j := 8) h₁ 8, ← Nat.shiftLeft_add_eq_or_of_lt h₂,
    Nat.shiftLeft_eq]
  omega

theorem quad_eq {v₀ v₁ v₂ v₃ : Nat} (h₁ : v₁ < 64) (h₂ : v₂ < 64) (h₃ : v₃ < 64) :
    ((v₀ <<< 18 ||| v₁ <<< 12) ||| v₂ <<< 6) ||| v₃ =
      v₀ * 262144 + v₁ * 4096 + v₂ * 64 + v₃ := by
  rw [shiftLeft_or_shiftLeft (j := 6) h₁ 12, shiftLeft_or_shiftLeft (j := 6) h₂ 6,
    ← Nat.shiftLeft_add_eq_or_of_lt h₃, Nat.shiftLeft_eq]
  omega

theorem b64DecodePadded_pad : b64DecodePadded pad = .ok 0 := rfl

theorem b64DecodePadded_b64Char {v : Nat} (h : v < 64) :
    b64DecodePadded (b64Char v) = .ok v := by
  rw [b64DecodePadded, if_pos (b64Char_lt v).2, b64DecodeChar_b64Char h]

theorem ofNat_eq {b : UInt8} {n : Nat} (h : n % 256 = b.toNat) : UInt8.ofNat n = b := by
  apply UInt8.toNat_inj.mp
  rw [UInt8.toNat_ofNat']
  exact h

theorem of_b64DecodePadded {c : UInt8} {v : Nat} (h : b64DecodePadded c = .ok v) :
    v < 64 ∧ (c = pad ∧ v = 0 ∨ c ≠ pad ∧ b64Char v = c) := by
  unfold b64DecodePadded at h
  split at h
  · next hc => exact ⟨(of_b64DecodeChar h).1, .inr ⟨hc, (of_b64DecodeChar h).2⟩⟩
  · next hc =>
    cases h
    exact ⟨by decide, .inl ⟨not_not.mp hc, rfl⟩⟩

/-- One group in front: all four characters decode, and so does what follows. -/
theorem decodeChunks_cons_eq_ok_iff {c₀ c₁ c₂ c₃ : UInt8} {rest d : Bytes} :
    decodeChunks (c₀ :: c₁ :: c₂ :: c₃ :: rest) = .ok d ↔
      ∃ v₀ v₁ v₂ v₃ bytes, b64DecodeChar c₀ = .ok v₀ ∧ b64DecodeChar c₁ = .ok v₁ ∧
        b64DecodePadded c₂ = .ok v₂ ∧ b64DecodePadded c₃ = .ok v₃ ∧
        decodeChunks rest = .ok bytes ∧
        pushed c₂ c₃ (v₀ * 262144 + v₁ * 4096 + v₂ * 64 + v₃) ++ bytes = d := by
  rw [decodeChunks]
  constructor
  · intro h
    obtain ⟨v₀, h₀, h⟩ := bind_eq_ok_iff.mp h
    obtain ⟨v₁, h₁, h⟩ := bind_eq_ok_iff.mp h
    obtain ⟨v₂, h₂, h⟩ := bind_eq_ok_iff.mp h
    obtain ⟨v₃, h₃, h⟩ := bind_eq_ok_iff.mp h
    obtain ⟨bytes, hbytes, h⟩ := bind_eq_ok_iff.mp h
    rw [quad_eq (of_b64DecodeChar h₁).1 (of_b64DecodePadded h₂).1 (of_b64DecodePadded h₃).1] at h
    exact ⟨v₀, v₁, v₂, v₃, bytes, h₀, h₁, h₂, h₃, hbytes, Except.ok.inj h⟩
  · rintro ⟨v₀, v₁, v₂, v₃, bytes, h₀, h₁, h₂, h₃, hbytes, rfl⟩
    rw [← quad_eq (of_b64DecodeChar h₁).1 (of_b64DecodePadded h₂).1 (of_b64DecodePadded h₃).1,
      h₀, h₁, h₂, h₃, hbytes]
    rfl

/-! ### What the encoder writes is decoded to what it read -/

theorem decodeChunks_encodeChunks (data : Bytes) :
    decodeChunks (encodeChunks data) = .ok data := by
  fun_induction encodeChunks data with
  | case1 => rfl
  | case2 b₀ =>
    have h := b₀.toNat_lt
    rw [b64Char_mod, b64Char_mod (_ >>> 12), triple_eq]
    simp only [Nat.shiftRight_eq_div_pow, UInt8.toNat_zero]
    refine decodeChunks_cons_eq_ok_iff.mpr ⟨_, _, _, _, [], b64DecodeChar_b64Char (by omega),
      b64DecodeChar_b64Char (by omega), b64DecodePadded_pad, b64DecodePadded_pad, rfl, ?_⟩
    simp only [pushed, if_true, Nat.shiftRight_eq_div_pow, Nat.reduceAdd, lt_irrefl, if_false,
      OfNat.ofNat_ne_zero, List.append_nil, List.cons.injEq, and_true]
    exact ofNat_eq (by omega)
  | case3 b₀ b₁ =>
    have h₀ := b₀.toNat_lt
    have h₁ := b₁.toNat_lt
    rw [b64Char_mod, b64Char_mod (_ >>> 12), b64Char_mod (_ >>> 6), triple_eq]
    simp only [Nat.shiftRight_eq_div_pow, UInt8.toNat_zero]
    refine decodeChunks_cons_eq_ok_iff.mpr ⟨_, _, _, _, [], b64DecodeChar_b64Char (by omega),
      b64DecodeChar_b64Char (by omega), b64DecodePadded_b64Char (by omega), b64DecodePadded_pad,
      rfl, ?_⟩
    simp only [pushed, (b64Char_lt _).2, if_true, Nat.shiftRight_eq_div_pow, if_false,
      Nat.reduceAdd, Nat.reduceLT, one_ne_zero, List.append_nil, List.cons.injEq, and_true]
    exact ⟨ofNat_eq (by omega), ofNat_eq (by omega)⟩
  | case4 b₀ b₁ b₂ rest ih =>
    have h₀ := b₀.toNat_lt
    have h₁ := b₁.toNat_lt
    have h₂ := b₂.toNat_lt
    rw [b64Char_mod, b64Char_mod (_ >>> 12), b64Char_mod (_ >>> 6),
      b64Char_mod (triple b₀ b₁ b₂), triple_eq]
    simp only [Nat.shiftRight_eq_div_pow]
    refine decodeChunks_cons_eq_ok_iff.mpr ⟨_, _, _, _, rest, b64DecodeChar_b64Char (by omega),
      b64DecodeChar_b64Char (by omega), b64DecodePadded_b64Char (by omega),
      b64DecodePadded_b64Char (by omega), ih, ?_⟩
    simp only [pushed, (b64Char_lt _).2, if_true, Nat.shiftRight_eq_div_pow, if_false,
      Nat.reduceAdd, Nat.reduceLT, List.cons_append, List.nil_append, List.cons.injEq, and_true]
    exact ⟨ofNat_eq (by omega), ofNat_eq (by omega), ofNat_eq (by omega)⟩

/-! ### The strings that the encoder gives back -/

/-- A character with a value. -/
def IsB64 (c : UInt8) : Prop := c ∈ b64Chars

/-- The value of a character, zero where it has none. -/
def b64Value (c : UInt8) : Nat := (b64DecodeChar c).toOption.getD 0

/-- What the decoder accepts: groups of four, with characters of the alphabet in the first two
places and those or padding in the last two. -/
def Accepted : Bytes → Prop
  | [] => True
  | c₀ :: c₁ :: c₂ :: c₃ :: rest =>
    IsB64 c₀ ∧ IsB64 c₁ ∧ (c₂ = pad ∨ IsB64 c₂) ∧ (c₃ = pad ∨ IsB64 c₃) ∧ Accepted rest
  | _ => False

/-- Padding only at the end of the last group, where the bits to spare are zero. -/
def Canonical : Bytes → Prop
  | [] => True
  | [_, c₁, c₂, c₃] =>
    (c₂ = pad → c₃ = pad ∧ b64Value c₁ % 16 = 0) ∧ (c₂ ≠ pad → c₃ = pad → b64Value c₂ % 4 = 0)
  | _ :: _ :: c₂ :: c₃ :: rest => c₂ ≠ pad ∧ c₃ ≠ pad ∧ Canonical rest
  | _ => False

theorem isB64_iff {c : UInt8} : IsB64 c ↔ ∃ v, b64DecodeChar c = .ok v := by
  constructor
  · intro hc
    have hall : (b64Chars.all fun c => (b64DecodeChar c).toOption.isSome) = true := by
      decide +kernel
    have hsome := List.all_eq_true.mp hall c hc
    cases hdecode : b64DecodeChar c with
    | error e =>
      rw [hdecode] at hsome
      cases hsome
    | ok v => exact ⟨v, rfl⟩
  · rintro ⟨v, hv⟩
    obtain ⟨-, rfl⟩ := of_b64DecodeChar hv
    have hlen : b64Chars.length = 64 := by decide +kernel
    have hlt : v &&& 0x3F < b64Chars.length := by
      rw [hlen]
      exact Nat.lt_succ_of_le Nat.and_le_right
    rw [IsB64, b64Char, List.getD_eq_getElem _ _ hlt]
    exact List.getElem_mem hlt

theorem pad_or_isB64_iff {c : UInt8} : c = pad ∨ IsB64 c ↔ ∃ v, b64DecodePadded c = .ok v := by
  rw [isB64_iff, b64DecodePadded]
  by_cases hc : c = pad
  · simp [hc]
  · simp [hc]

theorem b64Value_eq {c : UInt8} {v : Nat} (h : b64DecodeChar c = .ok v) : b64Value c = v := by
  rw [b64Value, h]
  rfl

theorem accepted_iff (s : Bytes) :
    Accepted s ↔ s.length % 4 = 0 ∧ ∃ d, decodeChunks s = .ok d := by
  fun_induction Accepted s with
  | case1 => exact iff_of_true trivial ⟨rfl, [], rfl⟩
  | case2 c₀ c₁ c₂ c₃ rest ih =>
    rw [ih, isB64_iff, isB64_iff, pad_or_isB64_iff, pad_or_isB64_iff]
    simp only [decodeChunks_cons_eq_ok_iff, List.length_cons]
    constructor
    · rintro ⟨⟨v₀, h₀⟩, ⟨v₁, h₁⟩, ⟨v₂, h₂⟩, ⟨v₃, h₃⟩, hlen, d, hd⟩
      exact ⟨by omega, _, v₀, v₁, v₂, v₃, d, h₀, h₁, h₂, h₃, hd, rfl⟩
    · rintro ⟨hlen, _, v₀, v₁, v₂, v₃, d, h₀, h₁, h₂, h₃, hd, _⟩
      exact ⟨⟨v₀, h₀⟩, ⟨v₁, h₁⟩, ⟨v₂, h₂⟩, ⟨v₃, h₃⟩, by omega, d, hd⟩
  | case3 s hnil hcons =>
    refine iff_of_false id fun ⟨hlen, _⟩ => ?_
    match s, hnil, hcons with
    | [], hnil, _ => exact hnil rfl
    | [_], _, _ => simp at hlen
    | [_, _], _, _ => simp at hlen
    | [_, _, _], _, _ => simp at hlen
    | _ :: _ :: _ :: _ :: _, _, hcons => exact hcons _ _ _ _ _ rfl

theorem encodeChunks_length (data : Bytes) : (encodeChunks data).length % 4 = 0 := by
  fun_induction encodeChunks data with
  | case1 => rfl
  | case2 b₀ => simp
  | case3 b₀ b₁ => simp
  | case4 b₀ b₁ b₂ rest ih =>
    simp only [List.length_cons]
    omega

theorem encodeChunks_lt (data : Bytes) : ∀ b ∈ encodeChunks data, b < 128 := by
  have hpad : pad < 128 := by decide
  fun_induction encodeChunks data with
  | case1 => simp
  | case2 b₀ => simp [b64Char_lt, hpad]
  | case3 b₀ b₁ => simp [b64Char_lt, hpad]
  | case4 b₀ b₁ b₂ rest ih => simpa [b64Char_lt] using ih

theorem asBytes_base64Encode (data : Bytes) : asBytes (base64Encode data) = encodeChunks data := by
  rw [base64Encode, asBytes_ofList]
  have hlt := encodeChunks_lt data
  have hascii : ∀ n < 128, (Char.ofNat n).toNat = n := by decide
  revert hlt
  induction encodeChunks data with
  | nil => exact fun _ => rfl
  | cons b bs ih =>
    intro hlt
    have hb : b.toNat < 128 := UInt8.lt_iff_toNat_lt.mp (hlt b (by simp))
    have hchar : (Char.ofNat b.toNat).toNat = b.toNat := hascii _ hb
    rw [List.map_cons, utf8_cons, utf8EncodeChar_of_lt (by omega),
      ih fun x hx => hlt x (List.mem_cons_of_mem _ hx), List.singleton_append]
    congr 1
    apply UInt8.toNat_inj.mp
    rw [toNat_toUInt8 (by omega), hchar]

theorem base64Decode_eq_ok_iff {s : String} {d : Bytes} :
    base64Decode s = .ok d ↔ (asBytes s).length % 4 = 0 ∧ decodeChunks (asBytes s) = .ok d := by
  rw [base64Decode]
  by_cases hnil : asBytes s = []
  · simp [hnil, decodeChunks, pure, Except.pure]
  · by_cases hlen : (asBytes s).length % 4 = 0
    · simp [hnil, hlen]
    · simp [hnil, hlen]

/-- What the encoder writes is canonical. -/
theorem canonical_encodeChunks (data : Bytes) : Canonical (encodeChunks data) := by
  fun_induction encodeChunks data with
  | case1 => trivial
  | case2 b₀ =>
    refine ⟨fun _ => ⟨rfl, ?_⟩, fun h => absurd rfl h⟩
    rw [b64Char_mod, b64Value_eq (b64DecodeChar_b64Char (Nat.mod_lt _ (by decide))), triple_eq,
      Nat.shiftRight_eq_div_pow, UInt8.toNat_zero]
    omega
  | case3 b₀ b₁ =>
    refine ⟨fun h => absurd h (b64Char_lt _).2, fun _ _ => ?_⟩
    rw [b64Char_mod, b64Value_eq (b64DecodeChar_b64Char (Nat.mod_lt _ (by decide))), triple_eq,
      Nat.shiftRight_eq_div_pow, UInt8.toNat_zero]
    omega
  | case4 b₀ b₁ b₂ rest ih =>
    cases hrest : encodeChunks rest with
    | nil => exact ⟨fun h => absurd h (b64Char_lt _).2, fun _ h => absurd h (b64Char_lt _).2⟩
    | cons c cs =>
      rw [hrest] at ih
      exact ⟨(b64Char_lt _).2, (b64Char_lt _).2, ih⟩

theorem b64Char_eq {n v : Nat} {c : UInt8} (hn : n % 64 = v) (hc : b64Char v = c) :
    b64Char n = c := by
  rw [b64Char_mod, hn, hc]

/-- A group without padding is given back, and what follows is encoded on its own. -/
theorem encodeChunks_full {c₀ c₁ c₂ c₃ : UInt8} {v₀ v₁ v₂ v₃ : Nat} {bytes : Bytes}
    (h₀ : b64DecodeChar c₀ = .ok v₀) (h₁ : b64DecodeChar c₁ = .ok v₁)
    (h₂ : b64DecodePadded c₂ = .ok v₂) (h₃ : b64DecodePadded c₃ = .ok v₃)
    (hc₂ : c₂ ≠ pad) (hc₃ : c₃ ≠ pad) :
    encodeChunks (pushed c₂ c₃ (v₀ * 262144 + v₁ * 4096 + v₂ * 64 + v₃) ++ bytes) =
      c₀ :: c₁ :: c₂ :: c₃ :: encodeChunks bytes := by
  obtain ⟨l₀, e₀⟩ := of_b64DecodeChar h₀
  obtain ⟨l₁, e₁⟩ := of_b64DecodeChar h₁
  obtain ⟨l₂, e₂⟩ := of_b64DecodePadded h₂
  obtain ⟨l₃, e₃⟩ := of_b64DecodePadded h₃
  have e₂ : b64Char v₂ = c₂ := (e₂.resolve_left fun h => hc₂ h.1).2
  have e₃ : b64Char v₃ = c₃ := (e₃.resolve_left fun h => hc₃ h.1).2
  simp only [pushed, hc₂, hc₃, if_false, if_true, Nat.reduceAdd, Nat.reduceLT, List.cons_append,
    List.nil_append, encodeChunks, triple_eq, UInt8.toNat_ofNat', Nat.shiftRight_eq_div_pow,
    List.cons.injEq, and_true]
  exact ⟨b64Char_eq (by omega) e₀, b64Char_eq (by omega) e₁, b64Char_eq (by omega) e₂,
    b64Char_eq (by omega) e₃⟩

/-- A last group is given back when its padding is at the end and its spare bits are zero. -/
theorem encodeChunks_last {c₀ c₁ c₂ c₃ : UInt8} {v₀ v₁ v₂ v₃ : Nat}
    (h₀ : b64DecodeChar c₀ = .ok v₀) (h₁ : b64DecodeChar c₁ = .ok v₁)
    (h₂ : b64DecodePadded c₂ = .ok v₂) (h₃ : b64DecodePadded c₃ = .ok v₃)
    (hcanon : Canonical [c₀, c₁, c₂, c₃]) :
    encodeChunks (pushed c₂ c₃ (v₀ * 262144 + v₁ * 4096 + v₂ * 64 + v₃)) = [c₀, c₁, c₂, c₃] := by
  obtain ⟨l₀, e₀⟩ := of_b64DecodeChar h₀
  obtain ⟨l₁, e₁⟩ := of_b64DecodeChar h₁
  by_cases hc₂ : c₂ = pad
  · obtain ⟨rfl, hspare⟩ := hcanon.1 hc₂
    subst hc₂
    cases h₂
    cases h₃
    rw [b64Value_eq h₁] at hspare
    simp only [pushed, if_true, Nat.reduceAdd, lt_irrefl, if_false, OfNat.ofNat_ne_zero,
      List.append_nil, encodeChunks, triple_eq, UInt8.toNat_ofNat', UInt8.toNat_zero,
      Nat.shiftRight_eq_div_pow, List.cons.injEq, and_true]
    exact ⟨b64Char_eq (by omega) e₀, b64Char_eq (by omega) e₁⟩
  · by_cases hc₃ : c₃ = pad
    · have hspare := hcanon.2 hc₂ hc₃
      subst hc₃
      cases h₃
      rw [b64DecodePadded, if_pos hc₂] at h₂
      obtain ⟨l₂, e₂⟩ := of_b64DecodeChar h₂
      rw [b64Value_eq h₂] at hspare
      simp only [pushed, hc₂, if_true, Nat.reduceAdd, Nat.reduceLT, if_false, one_ne_zero,
        List.append_nil, encodeChunks, triple_eq, UInt8.toNat_ofNat', UInt8.toNat_zero,
        Nat.shiftRight_eq_div_pow, List.cons.injEq, and_true]
      exact ⟨b64Char_eq (by omega) e₀, b64Char_eq (by omega) e₁, b64Char_eq (by omega) e₂⟩
    · rw [← List.append_nil (pushed _ _ _), encodeChunks_full h₀ h₁ h₂ h₃ hc₂ hc₃]
      rfl

theorem encodeChunks_of_canonical {s d : Bytes} (hcanon : Canonical s)
    (hd : decodeChunks s = .ok d) : encodeChunks d = s := by
  fun_induction Canonical s generalizing d with
  | case1 =>
    cases hd
    rfl
  | case2 c₀ c₁ c₂ c₃ =>
    obtain ⟨v₀, v₁, v₂, v₃, _, h₀, h₁, h₂, h₃, hrest, rfl⟩ := decodeChunks_cons_eq_ok_iff.mp hd
    cases hrest
    rw [List.append_nil]
    exact encodeChunks_last h₀ h₁ h₂ h₃ hcanon
  | case3 c₀ c₁ c₂ c₃ rest hne ih =>
    obtain ⟨v₀, v₁, v₂, v₃, _, h₀, h₁, h₂, h₃, hrest, rfl⟩ := decodeChunks_cons_eq_ok_iff.mp hd
    rw [encodeChunks_full h₀ h₁ h₂ h₃ hcanon.1 hcanon.2.1, ih hcanon.2.2 hrest]
  | case4 => exact hcanon.elim

/-- Decoding undoes encoding, and encoding undoes the decoding of an accepted string exactly when
that string is canonical. -/
theorem base64_round_trip_iff (s : String) :
    ((∀ d, base64Decode (base64Encode d) = .ok d) ∧
        ∀ d, base64Decode s = .ok d → base64Encode d = s) ↔
      (Accepted (asBytes s) → Canonical (asBytes s)) := by
  constructor
  · intro ⟨_, hback⟩ haccepted
    obtain ⟨hlen, d, hd⟩ := (accepted_iff _).mp haccepted
    rw [← hback d (base64Decode_eq_ok_iff.mpr ⟨hlen, hd⟩), asBytes_base64Encode]
    exact canonical_encodeChunks d
  · intro hcanon
    constructor
    · intro d
      apply base64Decode_eq_ok_iff.mpr
      rw [asBytes_base64Encode]
      exact ⟨encodeChunks_length d, decodeChunks_encodeChunks d⟩
    · intro d hd
      obtain ⟨hlen, hd⟩ := base64Decode_eq_ok_iff.mp hd
      apply asBytes_inj.mp
      rw [asBytes_base64Encode]
      exact encodeChunks_of_canonical (hcanon ((accepted_iff _).mpr ⟨hlen, d, hd⟩)) hd

/-- Padding before the last character: two accepted strings of different text give the same
bytes. -/
theorem base64Decode_inner_padding :
    base64Decode "AA=A" = .ok [0, 0] ∧ base64Encode [0, 0] = "AAA=" := by
  decide +kernel

end MerlionKernel.Encoding
