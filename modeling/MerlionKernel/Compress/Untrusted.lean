import MerlionKernel.Compress.RoundTrip

/-!
# Decompressing an arbitrary buffer

Nothing marks a buffer as the output of `compress`, so `decompress` may meet any bytes.
`decode_tokens` copes with all of them: it reads a token stream out of every buffer, also
out of one that ends inside a block or inside a token. Replaying the stream is another
matter. A back-reference is read with whatever offset its two bytes spell, and the replay
subtracts that offset from the length of the output with wrap-around and indexes with the
difference. It stays inside the output exactly when every back-reference points at a byte
that an earlier token has produced.
-/

namespace MerlionKernel.Compress

open Rust

/-! ### What a buffer spells -/

/-- The flags of one block, in the order of its tokens. -/
def flagBits (flags : UInt8) : List Bool := (List.range 8).map flags.toNat.testBit

/-- The back-reference that three bytes spell. -/
def Token.ofBytes (low high extra : UInt8) : Token :=
  .backRef (low.toNat ||| (high.toNat <<< 8)) (extra.toNat + minMatchLen)

/-- The tokens that a string of bytes spells, with the flags of the current block that are
left. A byte behind the last flag holds the flags of the next block; so does a byte where a
back-reference is due that has fewer than three bytes. -/
def readStream : Bytes → List Bool → List Token
  | [], _ => []
  | flags :: rest, [] => readStream rest (flagBits flags)
  | b :: rest, false :: flags => .literal b :: readStream rest flags
  | low :: high :: extra :: rest, true :: flags =>
    .ofBytes low high extra :: readStream rest flags
  | flags :: rest, true :: _ => readStream rest (flagBits flags)

@[simp] theorem readStream_nil (flags : List Bool) : readStream [] flags = [] := by
  cases flags <;> rfl

/-- A back-reference cut short by the end of the buffer ends its block. -/
theorem readStream_short {bytes : Bytes} (h : bytes.length ≤ 2) (flags : List Bool) :
    readStream bytes (true :: flags) = readStream bytes [] := by
  match bytes with
  | [] => rfl
  | [_] => rfl
  | [_, _] => rfl
  | _ :: _ :: _ :: _ => exact absurd h (by simp)

/-! ### The decoder reads it -/

section Decode

variable {data : Bytes} {pos : Nat}

/-- What the loop over the flags of a block leaves behind: it has moved forward, and the
tokens it has read are those that the unread bytes spell under these flags. -/
def BlockRead (data : Bytes) (pos : Nat) (flags : List Bool) (acc : List Token)
    (s : Nat × List Token) : Prop :=
  pos ≤ s.1 ∧ acc ++ readStream (data.drop pos) flags = s.2 ++ readStream (data.drop s.1) []

/-- One more token has been read. -/
theorem BlockRead.step {n : Nat} {t : Token} {flag : Bool} {flags : List Bool}
    {acc : List Token} {s : Nat × List Token}
    (hread : readStream (data.drop pos) (flag :: flags) =
      t :: readStream (data.drop (pos + n)) flags)
    (h : BlockRead data (pos + n) flags (acc ++ [t]) s) :
    BlockRead data pos (flag :: flags) acc s := by
  refine ⟨(Nat.le_add_right _ _).trans h.1, ?_⟩
  rw [hread, ← h.2, List.append_assoc, List.singleton_append]

theorem decodeBlock_returns (data : Bytes) (flags : Nat) (bits : List Nat) (pos : Nat)
    (acc : List Token) :
    Returns (decodeBlock data flags bits (pos, acc))
      (BlockRead data pos (bits.map flags.testBit) acc) := by
  induction bits generalizing pos acc with
  | nil => exact .ok ⟨le_rfl, rfl⟩
  | cons bit bits ih =>
    rw [decodeBlock, List.map_cons]
    by_cases hend : data.length ≤ pos
    · rw [if_pos hend]
      refine .ok ⟨le_rfl, ?_⟩
      rw [List.drop_eq_nil_of_le hend, readStream_nil, readStream_nil]
    rw [if_neg hend]
    by_cases hflag : flags &&& (1 <<< bit) ≠ 0
    · rw [if_pos hflag, (and_shiftLeft_ne_zero_iff _ _).mp hflag]
      by_cases hshort : data.length ≤ pos + 2
      · rw [if_pos hshort]
        refine .ok ⟨le_rfl, ?_⟩
        rw [readStream_short (by rw [List.length_drop]; omega)]
      rw [if_neg hshort, index_eq_ok (by omega), ok_bind, index_eq_ok (by omega), ok_bind,
        index_eq_ok (by omega), ok_bind]
      refine (ih _ _).mono fun s hs => hs.step ?_
      rw [List.drop_eq_getElem_cons (show pos < data.length by omega),
        List.drop_eq_getElem_cons (show pos + 1 < data.length by omega),
        List.drop_eq_getElem_cons (show pos + 1 + 1 < data.length by omega)]
      rfl
    · have hclear : flags.testBit bit = false := by
        rwa [and_shiftLeft_ne_zero_iff, Bool.not_eq_true] at hflag
      rw [if_neg hflag, hclear, index_eq_ok (by omega), ok_bind]
      refine (ih _ _).mono fun s hs => hs.step ?_
      rw [List.drop_eq_getElem_cons (show pos < data.length by omega)]
      rfl

/-- The decoder returns on every buffer, with the tokens that its bytes spell. -/
theorem decodeTokens_eq (data : Bytes) : decodeTokens data = .ok (readStream data []) := by
  refine Returns.eq_ok (loop_returns
    (fun s => s.2 ++ readStream (data.drop s.1) [] = readStream data [])
    (fun s => data.length - s.1) ?_ rfl (Nat.lt_succ_self _))
  rintro ⟨pos, acc⟩ hinv
  unfold decodeRound
  dsimp only at hinv ⊢
  by_cases hmore : pos < data.length
  · rw [if_pos hmore, index_eq_ok hmore, ok_bind]
    refine (decodeBlock_returns data _ _ (pos + 1) acc).bind fun s hs => ?_
    have hadvance : pos + 1 ≤ s.1 := hs.1
    refine .ok ⟨?_, by omega⟩
    -- The byte at the position holds the flags under which the block was read.
    rw [← hs.2, ← hinv, List.drop_eq_getElem_cons hmore]
    rfl
  · rw [if_neg hmore]
    rw [List.drop_eq_nil_of_le (Nat.le_of_not_lt hmore), readStream_nil, List.append_nil] at hinv
    exact .ok hinv

end Decode

/-! ### Replaying a stream -/

/-- After `produced` bytes of output, every back-reference of the stream points at a byte
that an earlier token has produced. -/
def Grounded : Nat → List Token → Prop
  | _, [] => True
  | produced, .literal _ :: tokens => Grounded (produced + 1) tokens
  | produced, .backRef offset length :: tokens =>
    1 ≤ offset ∧ offset ≤ produced ∧ Grounded (produced + length) tokens

/-- A token as the stream can spell it: its offset takes two bytes, and it copies
something. -/
def Token.Spelt : Token → Prop
  | .literal _ => True
  | .backRef offset length => offset < 2 ^ 16 ∧ 0 < length

theorem spelt_ofBytes (low high extra : UInt8) : (Token.ofBytes low high extra).Spelt := by
  refine ⟨Nat.or_lt_two_pow ?_ ?_, Nat.succ_pos _⟩
  · exact low.toNat_lt.trans_le (Nat.pow_le_pow_right (by decide) (by decide))
  · rw [Nat.shiftLeft_eq]
    have := high.toNat_lt
    omega

theorem spelt_of_mem_readStream (bytes : Bytes) (flags : List Bool) :
    ∀ t ∈ readStream bytes flags, t.Spelt := by
  induction bytes, flags using readStream.induct with
  | case1 flags => simp
  | case2 flags rest ih => exact ih
  | case3 b rest flags ih => exact List.forall_mem_cons.mpr ⟨trivial, ih⟩
  | case4 low high extra rest flags ih =>
    exact List.forall_mem_cons.mpr ⟨spelt_ofBytes low high extra, ih⟩
  | case5 b rest flags hshort ih =>
    rw [readStream.eq_5 _ _ _ hshort]
    exact ih

section Replay

variable {out : Bytes} {offset length : Nat}

/-- A back-reference into the output is replayed; each copy finds its byte, since the
output has grown by as many bytes as were copied. -/
theorem replayToken_backRef_returns (hpos : 1 ≤ offset) (hle : offset ≤ out.length) :
    Returns (replayToken out (.backRef offset length))
      fun out' => out'.length = out.length + length := by
  rw [replayToken, wrappingSub_of_le hle]
  refine foldlM_range_returns (fun k (out' : Bytes) => out'.length = out.length + k) length ?_ rfl
  intro k hk out' hlen
  rw [copyByte, index_eq_ok (by omega), ok_bind]
  refine .ok ?_
  rw [List.length_append, List.length_singleton, hlen, Nat.add_assoc]

/-- Any other back-reference stops at its first byte. -/
theorem replayToken_backRef_error (hspelt : (Token.backRef offset length).Spelt)
    (hout : ¬ (1 ≤ offset ∧ offset ≤ out.length)) :
    replayToken out (.backRef offset length) = .error .index := by
  obtain ⟨hoffset, hlength⟩ := hspelt
  have hstart : out.length ≤ wrappingSub out.length offset := by
    unfold wrappingSub
    split <;> omega
  obtain ⟨n, rfl⟩ : ∃ n, length = n + 1 := ⟨length - 1, by omega⟩
  have hfirst : copyByte (wrappingSub out.length offset) out 0 = .error .index := by
    rw [copyByte, Nat.add_zero, index, List.getElem?_eq_none hstart]
    rfl
  rw [replayToken, List.range_succ_eq_map, List.foldlM_cons, hfirst, error_bind]

end Replay

/-- A stream is replayed to its end exactly when it is grounded. -/
theorem replay_returns_iff {tokens : List Token} (hspelt : ∀ t ∈ tokens, t.Spelt) (out : Bytes) :
    (∃ out', tokens.foldlM replayToken out = .ok out') ↔ Grounded out.length tokens := by
  induction tokens generalizing out with
  | nil => exact ⟨fun _ => trivial, fun _ => ⟨out, rfl⟩⟩
  | cons t tokens ih =>
    obtain ⟨ht, htokens⟩ := List.forall_mem_cons.mp hspelt
    rw [List.foldlM_cons]
    cases t with
    | literal b =>
      rw [replayToken, pure_eq_ok, ok_bind, ih htokens, List.length_append,
        List.length_singleton, Grounded]
    | backRef offset length =>
      rw [Grounded, ← and_assoc]
      by_cases hin : 1 ≤ offset ∧ offset ≤ out.length
      · obtain ⟨out', hreplay, hlen⟩ : Returns (replayToken out (.backRef offset length)) _ :=
          replayToken_backRef_returns hin.1 hin.2
        rw [hreplay, ok_bind, ih htokens, hlen, and_iff_right hin]
      · rw [replayToken_backRef_error ht hin, error_bind]
        refine iff_of_false ?_ fun h => hin h.1
        rintro ⟨out', herror⟩
        cases herror

/-! ### Decompression -/

/-- `decompress` returns exactly on the buffers whose bytes spell a grounded stream; on
every other one it indexes past the end of its output. -/
theorem decompress_returns_iff (data : Bytes) :
    (∃ out, decompress data = .ok out) ↔ Grounded 0 (readStream data []) := by
  rw [decompress, decodeTokens_eq, ok_bind]
  exact replay_returns_iff (spelt_of_mem_readStream data []) []

-- A literal and a reference to it; the buffer ends inside the token after them.
example : Grounded 0 (readStream [6, 65, 1, 0, 0, 9] []) :=
  ⟨Nat.le_refl 1, Nat.le_refl 1, trivial⟩

/-- Four bytes that spell one back-reference, to the byte before the first. -/
theorem decompress_ungrounded : decompress [1, 1, 0, 0] = .error .index := by decide

end MerlionKernel.Compress
