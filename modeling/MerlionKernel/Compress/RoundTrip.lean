import MerlionKernel.Compress.Tokenise
import MerlionKernel.Rust.Cursor
import Mathlib.Data.Nat.Bitwise

/-!
# Decompression inverts compression

The encoder and the decoder meet in the relation `Layout`, which says which bytes write a
list of tokens: blocks of eight tokens, the last one possibly shorter, each behind a byte
whose bits tell back-references from literals. The encoder produces a layout of its
tokens; the decoder, which knows neither the number of tokens nor the length of the last
block, reads any layout back.
-/

namespace MerlionKernel.Compress

open Rust

/-- The bytes that a token takes in the stream. -/
def Token.payload : Token → Bytes
  | .literal b => [b]
  | .backRef offset length =>
    [.ofNat offset, .ofNat (offset >>> 8), .ofNat (length - minMatchLen)]

/-- The flag of a token. -/
def Token.isMatch : Token → Bool
  | .literal _ => false
  | .backRef _ _ => true

/-- The bytes write the tokens. -/
inductive Layout : List Token → Bytes → Prop
  | nil : Layout [] []
  | block {block tokens : List Token} {flags : UInt8} {bytes : Bytes} (hne : block ≠ [])
      (hle : block.length ≤ 8) (hfull : block.length = 8 ∨ tokens = [])
      (hflags : ∀ j t, block[j]? = some t → flags.toNat.testBit j = t.isMatch)
      (hrest : Layout tokens bytes) :
      Layout (block ++ tokens) (flags :: (block.flatMap Token.payload ++ bytes))

theorem Layout.eq_nil {tokens : List Token} {bytes : Bytes} (h : Layout tokens bytes)
    (htokens : tokens = []) : bytes = [] := by
  cases h with
  | nil => rfl
  | block hne => exact absurd (List.append_eq_nil_iff.mp htokens).1 hne

/-! ### Encoding -/

section Encode

variable {tokens : List Token} {i : Nat}

theorem foldlM_flagRound {n : Nat} (hn : i + n ≤ tokens.length) :
    Returns ((List.range n).foldlM (flagRound tokens i) 0) fun flags =>
      ∀ j, flags.testBit j = (decide (j < n) && tokens[i + j]?.any Token.isMatch) := by
  refine foldlM_range_returns (fun k (flags : Nat) =>
    ∀ j, flags.testBit j = (decide (j < k) && tokens[i + j]?.any Token.isMatch)) n ?_ (by simp)
  intro k hk flags hflags
  have htoken : tokens[i + k]? = some tokens[i + k] := List.getElem?_eq_getElem (by omega)
  -- Only bit `k` differs between the two conjunctions.
  have hother : ∀ j, j ≠ k → decide (j < k + 1) = decide (j < k) := fun j hj => by
    simp only [decide_eq_decide]; omega
  rw [flagRound, index_eq_ok_iff.mpr htoken, ok_bind]
  cases ht : tokens[i + k] with
  | literal b =>
    refine .ok fun j => ?_
    by_cases hj : j = k
    · subst hj
      simp [hflags, htoken, ht, Token.isMatch]
    · rw [hflags, hother j hj]
  | backRef offset length =>
    refine .ok fun j => ?_
    rw [Nat.testBit_or, Nat.one_shiftLeft, Nat.testBit_two_pow]
    by_cases hj : j = k
    · subst hj
      simp [htoken, ht, Token.isMatch]
    · rw [hflags, hother j hj, decide_eq_false (Ne.symm hj), Bool.or_false]

theorem foldlM_payloadRound {n : Nat} (hn : i + n ≤ tokens.length)
    (hrange : ∀ t ∈ tokens, t.InRange) (out : Bytes) :
    (List.range n).foldlM (payloadRound tokens i) out =
      .ok (out ++ ((tokens.drop i).take n).flatMap Token.payload) := by
  refine (foldlM_range_returns (fun k out' =>
    out' = out ++ ((tokens.drop i).take k).flatMap Token.payload) n ?_ (by simp)).eq_ok
  rintro k hk out' rfl
  have hnext : (tokens.drop i).take (k + 1) = (tokens.drop i).take k ++ [tokens[i + k]] := by
    rw [List.take_add_one, List.getElem?_drop, List.getElem?_eq_getElem (by omega)]
    rfl
  have hmem := hrange _ (List.getElem_mem (show i + k < tokens.length by omega))
  rw [hnext, List.flatMap_append, List.flatMap_singleton, ← List.append_assoc, payloadRound,
    index_eq_ok (by omega), ok_bind]
  cases ht : tokens[i + k] with
  | literal b => exact .ok rfl
  | backRef offset length =>
    rw [ht] at hmem
    simp only [sub_eq_ok hmem.2.2.1, ok_bind]
    exact .ok rfl

/-- One round writes one block: a layout of what is left completes to a layout of what was
left before. -/
theorem encodeRound_block (hrange : ∀ t ∈ tokens, t.InRange) (hi : i < tokens.length)
    (out : Bytes) :
    ∃ n flags, 0 < n ∧ i + n ≤ tokens.length ∧
      encodeRound tokens (i, out) =
        .ok (.again (i + n, out ++ flags :: ((tokens.drop i).take n).flatMap Token.payload)) ∧
      ∀ bytes, Layout (tokens.drop (i + n)) bytes →
        Layout (tokens.drop i)
          (flags :: (((tokens.drop i).take n).flatMap Token.payload ++ bytes)) := by
  generalize hn : (if tokens.length - i < 8 then tokens.length - i else 8) = n
  have hn' : 0 < n ∧ n ≤ 8 ∧ i + n ≤ tokens.length ∧ (n = 8 ∨ i + n = tokens.length) := by
    split at hn <;> omega
  obtain ⟨hpos, hle, hfits, hend⟩ := hn'
  obtain ⟨flags, hfold, hbits⟩ := foldlM_flagRound hfits
  have hlt : flags < 2 ^ 8 := Nat.lt_pow_two_of_testBit _ fun j hj => by
    rw [hbits, decide_eq_false (by omega), Bool.false_and]
  have hbyte : (UInt8.ofNat flags).toNat = flags := UInt8.toNat_ofNat_of_lt' hlt
  have hlen : ((tokens.drop i).take n).length = n := by
    rw [List.length_take, List.length_drop]; omega
  refine ⟨n, .ofNat flags, hpos, hfits, ?_, fun bytes hlayout => ?_⟩
  · simp only [encodeRound, if_pos hi, hn, hfold, ok_bind, foldlM_payloadRound hfits hrange,
      pure_eq_ok, List.append_assoc, List.singleton_append]
  · have hsplit : tokens.drop i = (tokens.drop i).take n ++ tokens.drop (i + n) := by
      rw [← List.drop_drop, List.take_append_drop]
    rw [hsplit, List.take_left' hlen]
    refine .block (List.ne_nil_of_length_pos (by omega)) (by omega) ?_ (fun j t ht => ?_) hlayout
    · exact hend.imp hlen.trans fun hall => List.drop_eq_nil_of_le (by omega)
    · obtain ⟨hj, -⟩ := List.getElem?_eq_some_iff.mp ht
      rw [List.getElem?_take_of_lt (by omega), List.getElem?_drop] at ht
      rw [hbyte, hbits, ht, decide_eq_true (by omega), Bool.true_and, Option.any_some]

theorem encodeTokens_layout (hrange : ∀ t ∈ tokens, t.InRange) :
    Returns (encodeTokens tokens) (Layout tokens) := by
  -- What is written so far completes every layout of the tokens still to come.
  refine loop_returns (fun s : Nat × Bytes => s.1 ≤ tokens.length ∧
      ∀ bytes, Layout (tokens.drop s.1) bytes → Layout tokens (s.2 ++ bytes))
    (fun s => tokens.length - s.1) ?_ ⟨Nat.zero_le _, fun bytes h => h⟩ (Nat.lt_succ_self _)
  rintro ⟨i, out⟩ ⟨hle, hcont⟩
  by_cases hi : i < tokens.length
  · obtain ⟨n, flags, hpos, hfits, hround, hblock⟩ := encodeRound_block hrange hi out
    rw [hround]
    refine .ok ⟨⟨hfits, fun bytes hlayout => ?_⟩, by dsimp only; omega⟩
    rw [List.append_assoc]
    exact hcont _ (hblock bytes hlayout)
  · rw [encodeRound, if_neg hi]
    have hdone := hcont [] (by rw [List.drop_eq_nil_of_le (Nat.le_of_not_lt hi)]; exact .nil)
    rw [List.append_nil] at hdone
    exact .ok hdone

end Encode

/-! ### Decoding -/

section Decode

variable {data : Bytes} {pos : Nat}

theorem and_shiftLeft_ne_zero_iff (flags bit : Nat) :
    flags &&& (1 <<< bit) ≠ 0 ↔ flags.testBit bit = true := by
  rw [Nat.one_shiftLeft, Nat.and_two_pow]
  cases flags.testBit bit <;> simp

/-- The two bytes of an offset, put together again. -/
theorem offset_bytes {offset : Nat} (h : offset < 2 ^ 16) :
    (UInt8.ofNat offset).toNat ||| ((UInt8.ofNat (offset >>> 8)).toNat <<< 8) = offset := by
  rw [UInt8.toNat_ofNat', UInt8.toNat_ofNat', Nat.or_comm,
    ← Nat.shiftLeft_add_eq_or_of_lt (Nat.mod_lt _ (by decide)), Nat.shiftLeft_eq,
    Nat.shiftRight_eq_div_pow]
  omega

/-- One token is read back at its flag. -/
theorem decodeBlock_token {t : Token} (ht : t.InRange) {rest : Bytes}
    (hunread : data.drop pos = t.payload ++ rest) {flags bit : Nat}
    (hflag : flags.testBit bit = t.isMatch) (bits : List Nat) (acc : List Token) :
    decodeBlock data flags (bit :: bits) (pos, acc) =
      decodeBlock data flags bits (pos + t.payload.length, acc ++ [t]) := by
  cases t with
  | literal b =>
    have hflag : ¬ flags &&& (1 <<< bit) ≠ 0 := by
      rw [and_shiftLeft_ne_zero_iff, hflag]; exact Bool.false_ne_true
    have hlt := lt_of_drop hunread
    rw [decodeBlock, if_neg (Nat.not_le.mpr hlt), if_neg hflag, index_of_drop hunread, ok_bind]
    rfl
  | backRef offset length =>
    obtain ⟨-, hoffset, hmin, hmax⟩ := ht
    have hflag : flags &&& (1 <<< bit) ≠ 0 := by
      rw [and_shiftLeft_ne_zero_iff, hflag]; rfl
    have hlen := congrArg List.length hunread
    simp only [List.length_drop, List.length_append, Token.payload, List.length_cons,
      List.length_nil] at hlen
    have hlt : length - minMatchLen < 2 ^ 8 := by unfold minMatchLen maxMatchLen at *; omega
    have hextra : (UInt8.ofNat (length - minMatchLen)).toNat + minMatchLen = length := by
      rw [UInt8.toNat_ofNat_of_lt' hlt, Nat.sub_add_cancel hmin]
    rw [decodeBlock, if_neg (by omega), if_pos hflag, if_neg (by omega), index_of_drop hunread,
      ok_bind, index_add_of_drop (k := 1) hunread rfl, ok_bind,
      index_add_of_drop (k := 2) hunread rfl, ok_bind, hextra,
      offset_bytes (by unfold windowSize at hoffset; omega)]
    rfl

/-- A block is read back: its eight tokens, or those that are left before the end of the
buffer. -/
theorem decodeBlock_eq {block : List Token} (hrange : ∀ t ∈ block, t.InRange) {rest : Bytes}
    (hunread : data.drop pos = block.flatMap Token.payload ++ rest) {flags k : Nat}
    (hle : k + block.length ≤ 8) (hend : k + block.length = 8 ∨ rest = [])
    (hflags : ∀ j t, block[j]? = some t → flags.testBit (k + j) = t.isMatch)
    (acc : List Token) :
    decodeBlock data flags (List.range' k (8 - k)) (pos, acc) =
      .ok (pos + (block.flatMap Token.payload).length, acc ++ block) := by
  induction block generalizing pos k acc with
  | nil =>
    rw [List.append_nil]
    rcases hend with rfl | rfl
    · rfl
    · -- The buffer ends inside the block: the next test of the position leaves the loop.
      have hpos : data.length ≤ pos := List.drop_eq_nil_iff.mp hunread
      cases List.range' k (8 - k) with
      | nil => rfl
      | cons bit bits =>
        rw [decodeBlock, if_pos hpos]
        rfl
  | cons t block ih =>
    rw [List.length_cons] at hle hend
    rw [List.flatMap_cons, List.append_assoc] at hunread
    have hbits : List.range' k (8 - k) = k :: List.range' (k + 1) (8 - (k + 1)) := by
      rw [show 8 - k = 8 - (k + 1) + 1 by omega, List.range'_succ]
    have hflag : flags.testBit k = t.isMatch := hflags 0 t rfl
    rw [hbits, decodeBlock_token (hrange t List.mem_cons_self) hunread hflag,
      ih (fun t' ht' => hrange t' (List.mem_cons_of_mem _ ht')) (drop_add_of_drop hunread)
        (by omega) (hend.imp_left fun hfull => by omega) fun j t' ht' => ?_]
    · rw [List.flatMap_cons, List.length_append, Nat.add_assoc, List.append_assoc,
        List.singleton_append]
    · rw [Nat.add_assoc, Nat.add_comm 1 j]
      exact hflags (j + 1) t' ht'

theorem loop_decodeRound {tokens : List Token} {bytes : Bytes} (h : Layout tokens bytes)
    (hrange : ∀ t ∈ tokens, t.InRange) (hunread : data.drop pos = bytes) (acc : List Token)
    {fuel : Nat} (hfuel : bytes.length < fuel) :
    loop (decodeRound data) fuel (pos, acc) = .ok (acc ++ tokens) := by
  induction h generalizing pos acc fuel with
  | nil =>
    have hpos : data.length ≤ pos := List.drop_eq_nil_iff.mp hunread
    obtain ⟨fuel, rfl⟩ : ∃ n, fuel = n + 1 := ⟨fuel - 1, by omega⟩
    rw [List.append_nil]
    exact loop_stop (by rw [decodeRound, if_neg (Nat.not_lt.mpr hpos)]; rfl) fuel
  | @block block tokens flags bytes hne hle hfull hflags hrest ih =>
    obtain ⟨fuel, rfl⟩ : ∃ n, fuel = n + 1 := ⟨fuel - 1, by omega⟩
    have hpayload := drop_succ_of_drop hunread
    have hblock := decodeBlock_eq (k := 0)
      (fun t ht => hrange t (List.mem_append_left _ ht)) hpayload (by omega)
      (hfull.imp (by omega) fun htokens => ?_) (fun j t ht => by rw [Nat.zero_add, hflags j t ht])
      acc
    · have hround : decodeRound data (pos, acc) =
          .ok (.again (pos + 1 + (block.flatMap Token.payload).length, acc ++ block)) := by
        rw [decodeRound, if_pos (lt_of_drop hunread), index_of_drop hunread, ok_bind,
          List.range_eq_range', hblock]
        rfl
      rw [loop_again hround, ih (fun t ht => hrange t (List.mem_append_right _ ht))
        (drop_add_of_drop hpayload), List.append_assoc]
      rw [List.length_cons, List.length_append] at hfuel
      omega
    · exact hrest.eq_nil htokens

theorem decodeTokens_layout {tokens : List Token} (h : Layout tokens data)
    (hrange : ∀ t ∈ tokens, t.InRange) : decodeTokens data = .ok tokens :=
  loop_decodeRound h hrange List.drop_zero [] (Nat.lt_succ_self _)

end Decode

/-! ### The round trip -/

/-- Decompressing what `compress` produced gives back the data, for data of any length,
and no access leaves its buffer on the way. -/
theorem decompress_compress (data : Bytes) : (compress data >>= decompress) = .ok data := by
  obtain ⟨tokens, htokenise, hdesc⟩ := tokenise_spec data
  obtain ⟨bytes, hencode, hlayout⟩ := encodeTokens_layout hdesc.inRange
  rw [compress, htokenise, ok_bind, hencode, ok_bind, decompress,
    decodeTokens_layout hlayout hdesc.inRange, ok_bind, hdesc.replay_eq, List.take_length]

end MerlionKernel.Compress
