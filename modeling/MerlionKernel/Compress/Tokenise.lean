import MerlionKernel.Compress.Model

/-!
# The tokeniser describes its input

Every back-reference that the search finds points at an earlier occurrence of the bytes
it stands for, so replaying the tokens of `tokenise` gives back the input. The occurrence
may overlap the bytes being produced: the replay copies one byte at a time, and a byte is
always written before it is read.
-/

namespace MerlionKernel.Compress

open Rust

variable {data : Bytes} {pos : Nat}

/-- The `n` bytes at `p` and at `q` are the same. -/
def Agrees (data : Bytes) (p q n : Nat) : Prop := ∀ k < n, data[p + k]? = data[q + k]?

/-- The back-reference `(offset, length)` stands for the bytes of the input at `pos`. -/
structure Reference (data : Bytes) (pos offset length : Nat) : Prop where
  offset_pos : 0 < offset
  offset_le : offset ≤ windowSize
  offset_le_pos : offset ≤ pos
  length_ge : minMatchLen ≤ length
  length_le : length ≤ maxMatchLen
  fits : pos + length ≤ data.length
  agrees : Agrees data (pos - offset) pos length

/-- The token keeps to the ranges that the stream format has room for. -/
def Token.InRange : Token → Prop
  | .literal _ => True
  | .backRef offset length =>
    0 < offset ∧ offset ≤ windowSize ∧ minMatchLen ≤ length ∧ length ≤ maxMatchLen

theorem Reference.inRange {offset length : Nat} (h : Reference data pos offset length) :
    (Token.backRef offset length).InRange :=
  ⟨h.offset_pos, h.offset_le, h.length_ge, h.length_le⟩

/-! ### The search -/

theorem matchLen_spec {candidate maxLen : Nat} (hlt : candidate < pos)
    (hfits : pos + maxLen ≤ data.length) (hmax : maxLen ≤ maxMatchLen) :
    Returns (matchLen data candidate pos maxLen) fun len =>
      len ≤ maxLen ∧ Agrees data candidate pos len := by
  refine loop_returns (fun len => len ≤ maxLen ∧ Agrees data candidate pos len)
    (fun len => maxLen - len) ?_ ⟨Nat.zero_le _, fun k hk => by omega⟩ (by omega)
  rintro len ⟨hlen, hagree⟩
  unfold matchRound
  by_cases hmore : len < maxLen
  · rw [if_pos hmore, index_eq_ok (by omega), ok_bind, index_eq_ok (by omega), ok_bind]
    by_cases hbyte : data[candidate + len] = data[pos + len]
    · rw [if_pos hbyte]
      refine .ok ⟨⟨hmore, fun k hk => ?_⟩, by omega⟩
      rcases Nat.lt_succ_iff_lt_or_eq.mp hk with hk | rfl
      · exact hagree k hk
      · rw [List.getElem?_eq_getElem (by omega), List.getElem?_eq_getElem (by omega), hbyte]
    · rw [if_neg hbyte]
      exact .ok ⟨hlen, hagree⟩
  · rw [if_neg hmore]
    exact .ok ⟨hlen, hagree⟩

/-- The search returns `(0, 0)` or a reference for the bytes at `pos`. -/
def Found (data : Bytes) (pos : Nat) (best : Nat × Nat) : Prop :=
  best = (0, 0) ∨ Reference data pos best.1 best.2

theorem searchRound_spec {maxLen : Nat} (hfits : pos + maxLen ≤ data.length)
    (hmax : maxLen ≤ maxMatchLen) (s : Search) (hwindow : pos ≤ s.candidate + windowSize)
    (hbest : Found data pos (s.bestOffset, s.bestLength)) :
    Returns (searchRound data pos maxLen s)
      (ControlFlow.Post (fun s' => s'.candidate = s.candidate + 1 ∧ s.candidate < pos ∧
        Found data pos (s'.bestOffset, s'.bestLength)) (Found data pos)) := by
  unfold searchRound
  by_cases hmore : s.candidate < pos
  · rw [if_pos hmore]
    refine (matchLen_spec hmore hfits hmax).bind fun len hlen => ?_
    by_cases hbetter : minMatchLen ≤ len ∧ s.bestLength < len % 2 ^ 16
    · rw [if_pos hbetter]
      unfold windowSize maxMatchLen at *
      have hoffset : (pos - s.candidate) % 2 ^ 16 = pos - s.candidate :=
        Nat.mod_eq_of_lt (by omega)
      have hlength : len % 2 ^ 16 = len := Nat.mod_eq_of_lt (by omega)
      have href : Reference data pos (pos - s.candidate) len :=
        { offset_pos := by omega
          offset_le := by unfold windowSize; omega
          offset_le_pos := by omega
          length_ge := hbetter.1
          length_le := hlen.1.trans hmax
          fits := by omega
          agrees := by
            rw [show pos - (pos - s.candidate) = s.candidate by omega]
            exact hlen.2 }
      rw [hoffset, hlength]
      by_cases hfull : len = maxLen
      · rw [if_pos hfull]
        exact .ok (.inr href)
      · rw [if_neg hfull]
        exact .ok ⟨rfl, hmore, .inr href⟩
    · rw [if_neg hbetter]
      exact .ok ⟨rfl, hmore, hbest⟩
  · rw [if_neg hmore]
    exact .ok hbest

theorem findLongestMatch_spec (hpos : pos < data.length) :
    Returns (findLongestMatch data pos) (Found data pos) := by
  unfold findLongestMatch
  rw [sub_eq_ok hpos.le, ok_bind]
  generalize hstart : (if windowSize ≤ pos then pos - windowSize else 0) = start
  generalize hmax : (if data.length - pos < maxMatchLen then data.length - pos
    else maxMatchLen) = maxLen
  have hstart : start ≤ pos ∧ pos ≤ start + windowSize := by split at hstart <;> omega
  have hmax : pos + maxLen ≤ data.length ∧ maxLen ≤ maxMatchLen := by split at hmax <;> omega
  refine loop_returns
    (fun s : Search => s.candidate ≤ pos ∧ pos ≤ s.candidate + windowSize ∧
      Found data pos (s.bestOffset, s.bestLength))
    (fun s => pos - s.candidate) ?_ ⟨hstart.1, hstart.2, .inl rfl⟩
    (show pos - start < windowSize + 1 by omega)
  rintro s ⟨-, hwindow, hbest⟩
  refine (searchRound_spec hmax.1 hmax.2 s hwindow hbest).mono fun flow hflow => ?_
  cases flow with
  | again s' =>
    obtain ⟨hnext, hmore, hbest'⟩ := hflow
    exact ⟨⟨by omega, by omega, hbest'⟩, by omega⟩
  | stop best => exact hflow

/-! ### Replay -/

/-- Replaying a reference behind the input up to its position extends the output by the
bytes that the reference stands for. -/
theorem replayToken_reference {offset length : Nat} (h : Reference data pos offset length) :
    replayToken (data.take pos) (.backRef offset length) = .ok (data.take (pos + length)) := by
  have hfits := h.fits
  have hoffset := h.offset_le_pos
  have hlen : (data.take pos).length = pos := by rw [List.length_take]; omega
  simp only [replayToken, hlen, wrappingSub_of_le hoffset]
  refine (foldlM_range_returns (fun k out => out = data.take (pos + k)) length ?_ rfl).eq_ok
  rintro k hk out rfl
  -- The byte read lies before the end of the output, at a place where the input agrees.
  have hread : (data.take (pos + k))[pos - offset + k]? = some data[pos + k] := by
    rw [List.getElem?_take_of_lt (by have := h.offset_pos; omega), h.agrees k hk,
      List.getElem?_eq_getElem]
  rw [copyByte, index_eq_ok_iff.mpr hread, ok_bind]
  exact .ok (List.take_append_getElem (by omega))

theorem replayToken_literal (hpos : pos < data.length) :
    replayToken (data.take pos) (.literal data[pos]) = .ok (data.take (pos + 1)) :=
  congrArg Except.ok (List.take_append_getElem hpos)

/-! ### Tokenising -/

/-- The tokens stand for the input up to `pos`. -/
structure Describes (data : Bytes) (pos : Nat) (tokens : List Token) : Prop where
  inRange : ∀ t ∈ tokens, t.InRange
  replay_eq : tokens.foldlM replayToken [] = .ok (data.take pos)

theorem Describes.append {pos' : Nat} {tokens : List Token} (h : Describes data pos tokens)
    {t : Token} (ht : t.InRange) (hreplay : replayToken (data.take pos) t = .ok (data.take pos')) :
    Describes data pos' (tokens ++ [t]) where
  inRange := by
    intro t' ht'
    rcases List.mem_append.mp ht' with hmem | hmem
    · exact h.inRange t' hmem
    · rwa [List.mem_singleton.mp hmem]
  replay_eq := by
    rw [List.foldlM_append, h.replay_eq, ok_bind, List.foldlM_cons, hreplay, ok_bind,
      List.foldlM_nil, pure_eq_ok]

theorem tokenise_spec (data : Bytes) :
    Returns (tokenise data) (Describes data data.length) := by
  refine loop_returns (fun s => s.1 ≤ data.length ∧ Describes data s.1 s.2)
    (fun s => data.length - s.1) ?_ ⟨Nat.zero_le _, by simp, rfl⟩ (Nat.lt_succ_self _)
  rintro ⟨pos, tokens⟩ ⟨hle, hdesc⟩
  unfold tokeniseRound
  by_cases hmore : pos < data.length
  · rw [if_pos hmore]
    refine (findLongestMatch_spec hmore).bind ?_
    rintro ⟨offset, length⟩ hfound
    dsimp only
    rcases hfound with hnone | href
    · obtain ⟨rfl, rfl⟩ := Prod.mk.inj hnone
      rw [if_neg (by decide), index_eq_ok hmore, ok_bind]
      exact .ok ⟨⟨hmore, hdesc.append trivial (replayToken_literal hmore)⟩, by omega⟩
    · have hlen : 0 < length := Nat.lt_of_lt_of_le (by decide) href.length_ge
      have hfits : pos + length ≤ data.length := href.fits
      rw [if_pos href.length_ge]
      exact .ok ⟨⟨hfits, hdesc.append href.inRange (replayToken_reference href)⟩, by omega⟩
  · rw [if_neg hmore]
    obtain rfl : pos = data.length := Nat.le_antisymm hle (Nat.le_of_not_lt hmore)
    exact .ok hdesc

end MerlionKernel.Compress
