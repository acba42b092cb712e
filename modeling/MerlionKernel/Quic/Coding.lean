import MerlionKernel.Quic.Frames

/-!
# Coding of QUIC frames

A frame is read back from its encoding, whatever follows it, as long as its integers fit in the 62
bits that the format has for them. On every slice the decoder returns, with a frame or an error, and
it never claims to have consumed more than the slice.
-/

namespace MerlionKernel.Quic

open Rust Reader

/-! ### Integers -/

/-- The first byte of an integer gives the size and the high bits of the value. -/
theorem first_byte {k b : Nat} (hk : k < 4) (hb : b < 64) :
    ((UInt8.ofNat (64 * k) ||| UInt8.ofNat b) >>> 6).toNat = k ∧
      ((UInt8.ofNat (64 * k) ||| UInt8.ofNat b) &&& 0x3F).toNat = b := by
  have hbytes : ∀ k < 4, ∀ b < 64,
      ((UInt8.ofNat (64 * k) ||| UInt8.ofNat b) >>> 6).toNat = k ∧
        ((UInt8.ofNat (64 * k) ||| UInt8.ofNat b) &&& 0x3F).toNat = b := by decide +kernel
  exact hbytes k hk b hb

theorem low_bits_lt (b : UInt8) : (b &&& 0x3F).toNat < 64 := by
  rw [UInt8.toNat_and]
  exact Nat.lt_of_le_of_lt Nat.and_le_right (by decide)

theorem decodeSized_sized {k n val : Nat} (hk : k < 4) (hval : val / 256 ^ n < 64)
    (rest : Bytes) :
    decodeSized (sized (UInt8.ofNat (64 * k)) n val ++ rest) n = .ok (.ok (val, n + 1)) := by
  have hlen : (sized (UInt8.ofNat (64 * k)) n val ++ rest).length = n + 1 + rest.length := by
    simp [sized, Nat.add_right_comm]
  have htail : window (sized (UInt8.ofNat (64 * k)) n val ++ rest) 1 n = toBe n val := by
    show (toBe n val ++ rest).take n = toBe n val
    exact List.take_left' (length_toBe n val)
  rw [decodeSized, if_neg (by omega), bytesAt_eq_ok (by omega), htail]
  show Except.ok (Except.ok _) = _
  rw [fromBe_cons, fromBe_toBe, length_toBe, (first_byte hk hval).2, Nat.mod_add_div]

theorem decodeVarint_cons (b : UInt8) (bs : Bytes) :
    decodeVarint (b :: bs) =
      match (b >>> 6).toNat with
      | 0 => .ok (.ok (b.toNat, 1))
      | 1 => decodeSized (b :: bs) 1
      | 2 => decodeSized (b :: bs) 3
      | _ => decodeSized (b :: bs) 7 := rfl

/-- An integer whose first byte leads to the size it was written with. -/
theorem decodeVarint_sized {k n val : Nat} (hk : k < 4) (hval : val / 256 ^ n < 64)
    (hsize : ∀ (b : UInt8) (bs : Bytes), (b >>> 6).toNat = k →
      decodeVarint (b :: bs) = decodeSized (b :: bs) n)
    (rest : Bytes) :
    decodeVarint (sized (UInt8.ofNat (64 * k)) n val ++ rest) =
      .ok (.ok (val, (sized (UInt8.ofNat (64 * k)) n val).length)) := by
  have hlen : (sized (UInt8.ofNat (64 * k)) n val).length = n + 1 := by simp [sized]
  rw [hlen, ← decodeSized_sized hk hval rest]
  exact hsize _ _ (first_byte hk hval).1

/-- An integer is read back from its encoding. -/
theorem decodeVarint_encodeVarint {val : Nat} (h : val < 2 ^ 62) (rest : Bytes) :
    decodeVarint (encodeVarint val ++ rest) = .ok (.ok (val, (encodeVarint val).length)) := by
  unfold encodeVarint
  by_cases h1 : val < 64
  · have hfirst : (UInt8.ofNat val >>> 6).toNat = 0 ∧ (UInt8.ofNat val).toNat = val := by
      have hbytes : ∀ b < 64, (UInt8.ofNat b >>> 6).toNat = 0 ∧ (UInt8.ofNat b).toNat = b := by
        decide +kernel
      exact hbytes val h1
    rw [if_pos h1, List.singleton_append, decodeVarint_cons, hfirst.1, hfirst.2]
    rfl
  rw [if_neg h1]
  by_cases h2 : val < 16384
  · rw [if_pos h2]
    refine decodeVarint_sized (k := 1) (by omega) (by omega) (fun b bs hb => ?_) rest
    simp only [decodeVarint_cons, hb]
  rw [if_neg h2]
  by_cases h4 : val < 1073741824
  · rw [if_pos h4]
    refine decodeVarint_sized (k := 2) (by omega) (by omega) (fun b bs hb => ?_) rest
    simp only [decodeVarint_cons, hb]
  · rw [if_neg h4]
    refine decodeVarint_sized (k := 3) (by omega) (by omega) (fun b bs hb => ?_) rest
    simp only [decodeVarint_cons, hb]

theorem decodeSized_total {n : Nat} (hn : n ≤ 7) (b : UInt8) (bs : Bytes) :
    (∃ e, decodeSized (b :: bs) n = .ok (.error e)) ∨
      ∃ val c, decodeSized (b :: bs) n = .ok (.ok (val, c)) ∧ c ≤ (b :: bs).length ∧
        val < 2 ^ 62 := by
  by_cases hlen : (b :: bs).length < n + 1
  · exact .inl ⟨"truncated varint", by rw [decodeSized, if_pos hlen]; rfl⟩
  · have hlen' : 1 + n ≤ (b :: bs).length := by omega
    refine .inr ⟨fromBe ((b &&& 0x3F) :: window (b :: bs) 1 n), n + 1, ?_, by omega, ?_⟩
    · rw [decodeSized, if_neg hlen, bytesAt_eq_ok hlen']
      rfl
    · have hbits := low_bits_lt b
      have htail := fromBe_lt (window (b :: bs) 1 n)
      have hpow : 256 ^ n ≤ 256 ^ 7 := Nat.pow_le_pow_right (by omega) hn
      rw [length_window hlen'] at htail
      rw [fromBe_cons, length_window hlen']
      calc fromBe (window (b :: bs) 1 n) + 256 ^ n * (b &&& 0x3F).toNat
          < 256 ^ n + 256 ^ n * (b &&& 0x3F).toNat := by omega
        _ = 256 ^ n * ((b &&& 0x3F).toNat + 1) := by ring
        _ ≤ 256 ^ 7 * 64 := Nat.mul_le_mul hpow (by omega)
        _ = 2 ^ 62 := by norm_num

/-- The decoder of integers returns on all bytes. -/
theorem decodeVarint_total (bs : Bytes) :
    (∃ e, decodeVarint bs = .ok (.error e)) ∨
      ∃ val c, decodeVarint bs = .ok (.ok (val, c)) ∧ c ≤ bs.length ∧ val < 2 ^ 62 := by
  cases bs with
  | nil => exact .inl ⟨"empty varint", rfl⟩
  | cons b bs =>
    rw [decodeVarint_cons]
    split
    · have hb := b.toNat_lt
      exact .inr ⟨b.toNat, 1, rfl, by simp, by omega⟩
    · exact decodeSized_total (by omega) b bs
    · exact decodeSized_total (by omega) b bs
    · exact decodeSized_total (by omega) b bs

/-! ### The parts of a frame -/

theorem varint_parses {val : Nat} (h : val < 2 ^ 62) : varint.Parses (encodeVarint val) val :=
  Parses.rest (decodeVarint_encodeVarint h)

theorem varint_total : varint.Total (· < 2 ^ 62) := Total.rest decodeVarint_total

theorem body_parses (bs : Bytes) (truncated : String) :
    (body bs.length truncated).Parses bs bs := by
  intro data rest pos hpos hdrop
  have hend := le_of_drop hpos hdrop
  have hdata := data.2
  rw [body, u64_eq_ok (by omega), ok_bind, if_neg (by omega), slice_of_drop hpos hdrop]
  rfl

theorem body_total {length : Nat} (h : length < 2 ^ 63) (truncated : String) :
    (body length truncated).Total fun _ => True := by
  intro data pos hpos
  have hdata := data.2
  rw [body, u64_eq_ok (by omega), ok_bind]
  by_cases hend : pos + length > data.1.length
  · exact .inl ⟨truncated, by rw [if_pos hend]; rfl⟩
  · rw [if_neg hend, slice_eq_ok (by omega) (by omega)]
    exact .inr ⟨_, pos + length, rfl, by omega, by omega, trivial⟩

theorem left_total : left.Total (· < 2 ^ 63) := by
  intro data pos hpos
  have hdata := data.2
  rw [left, sub_eq_ok hpos]
  exact .inr ⟨_, pos, rfl, le_rfl, hpos, by omega⟩

theorem block_parses {n : Nat} (b : Block n) (truncated : String) :
    (block n truncated).Parses b.1 b := by
  intro data rest pos hpos hdrop
  have hlen := b.2
  have hend := le_of_drop hpos hdrop
  have hslice := slice_of_drop hpos hdrop
  rw [hlen] at hend hslice ⊢
  rw [block, if_neg (by omega), hslice]
  show (if h : b.1.length = n then _ else _) = _
  rw [dif_pos hlen]
  rfl

theorem block_total (n : Nat) (truncated : String) :
    (block n truncated).Total fun _ => True := by
  intro data pos hpos
  rw [block]
  by_cases hend : data.1.length < pos + n
  · exact .inl ⟨truncated, by rw [if_pos hend]; rfl⟩
  · have hlen : ((data.1.drop pos).take (pos + n - pos)).length = n := by
      simp only [List.length_take, List.length_drop]
      omega
    rw [if_neg hend, slice_eq_ok (by omega) (by omega), ok_bind, dif_pos hlen]
    exact .inr ⟨_, pos + n, rfl, by omega, by omega, trivial⟩

/-- An identifier is its own bytes, followed by zeros. -/
theorem ConnectionId.copied_asBytes (cid : ConnectionId) (h : cid.asBytes.length ≤ 8) :
    copied cid.asBytes h = cid := by
  have hlen : cid.asBytes.length = cid.len := by
    rw [asBytes, List.length_take, cid.bytes.2, min_eq_left cid.len_le]
  have hbytes : cid.asBytes ++ List.replicate (8 - cid.asBytes.length) 0 = cid.bytes.1 := by
    rw [hlen, ← cid.zero_behind, asBytes, List.take_append_drop]
  obtain ⟨⟨bytes, hbytes8⟩, len, hle, hzero⟩ := cid
  simp only [copied, mk.injEq, Subtype.mk.injEq]
  exact ⟨hbytes, hlen⟩

theorem cidAndToken_parses (cid : ConnectionId) (token : Block 16) :
    cidAndToken.Parses ([UInt8.ofNat cid.len] ++ (cid.asBytes ++ token.1)) (cid, token) := by
  have hlen : cid.asBytes.length = cid.len := by
    rw [ConnectionId.asBytes, List.length_take, cid.bytes.2, min_eq_left cid.len_le]
  have htoken := token.2
  have hle := cid.len_le
  have hbyte : (UInt8.ofNat cid.len).toNat = cid.len :=
    UInt8.toNat_ofNat_of_lt' (hle.trans_lt (by decide))
  intro data rest pos hpos hdrop
  have hdata := le_of_drop hpos hdrop
  rw [List.length_append, List.length_append, List.length_singleton, hlen, htoken] at hdata ⊢
  rw [List.append_assoc, List.singleton_append] at hdrop
  have hindex := index_of_drop hdrop
  have hdrop' := drop_succ_of_drop hdrop
  rw [List.append_assoc] at hdrop'
  have hcid : bytesAt data.1 (pos + 1) (min cid.len 8) = .ok cid.asBytes := by
    rw [min_eq_left hle, bytesAt_eq_ok (by omega), window, hdrop', ← hlen, List.take_left]
  have hslice := slice_of_drop (by omega) (drop_add_of_drop hdrop')
  rw [hlen, htoken] at hslice
  rw [cidAndToken, if_neg (by omega), hindex, ok_bind]
  dsimp only
  rw [hbyte, if_neg (by omega), hcid, ok_bind, hslice, ok_bind,
    dif_pos ⟨hlen.trans_le hle, htoken⟩, ConnectionId.copied_asBytes]
  show Except.ok (Except.ok (_, _)) = _
  rw [Nat.add_assoc, Nat.add_assoc]

theorem cidAndToken_total : cidAndToken.Total fun _ => True := by
  intro data pos hpos
  unfold cidAndToken
  by_cases hbyte : pos ≥ data.1.length
  · exact .inl ⟨_, by rw [if_pos hbyte]; rfl⟩
  rw [if_neg hbyte, index_eq_ok (by omega), ok_bind]
  dsimp only
  generalize data.1[pos].toNat = cidLen
  by_cases hend : pos + 1 + cidLen + 16 > data.1.length
  · exact .inl ⟨_, by rw [if_pos hend]; rfl⟩
  have hcid : (window data.1 (pos + 1) (min cidLen 8)).length ≤ 8 := by
    rw [length_window (by omega)]
    exact min_le_right cidLen 8
  have htoken : ((data.1.drop (pos + 1 + cidLen)).take
      (pos + 1 + cidLen + 16 - (pos + 1 + cidLen))).length = 16 := by
    simp only [List.length_take, List.length_drop]
    omega
  rw [if_neg hend, bytesAt_eq_ok (by omega), ok_bind, slice_eq_ok (by omega) (by omega), ok_bind,
    dif_pos ⟨hcid, htoken⟩]
  exact .inr ⟨_, pos + 1 + cidLen + 16, rfl, by omega, by omega, trivial⟩

theorem reason_parses (text : String) :
    (reason (asBytes text).length).Parses (asBytes text) text := by
  intro data rest pos hpos hdrop
  have hend := le_of_drop hpos hdrop
  have hdata := data.2
  rw [reason, u64_eq_ok (by omega), ok_bind, if_pos hend, slice_of_drop hpos hdrop, ok_bind,
    fromUtf8_asBytes]
  rfl

theorem reason_total {length : Nat} (h : length < 2 ^ 62) :
    (reason length).Total fun _ => True := by
  intro data pos hpos
  have hdata := data.2
  rw [reason, u64_eq_ok (by omega), ok_bind]
  by_cases hend : pos + length ≤ data.1.length
  · rw [if_pos hend, slice_eq_ok (by omega) hend]
    exact .inr ⟨_, pos + length, rfl, by omega, hend, trivial⟩
  · rw [if_neg hend]
    exact .inr ⟨_, data.1.length, rfl, hpos, le_rfl, trivial⟩

theorem range_total : range.Total fun _ => True :=
  varint_total.bind fun _ _ => varint_total.bind fun _ _ => Total.pure trivial

theorem range_parses {gap len : Nat} (hgap : gap < 2 ^ 62) (hlen : len < 2 ^ 62) :
    range.Parses (encodeVarint gap ++ encodeVarint len) (gap, len) :=
  (varint_parses hgap).bind (varint_parses hlen).map

/-! ### Frames -/

/-- The integers that a frame is encoded with: its fields, and the lengths of what it carries. -/
def QuicFrame.ints : QuicFrame → List Nat
  | .padding => []
  | .ping => []
  | .ack largest delay ranges =>
    [largest, delay, ranges.length] ++ ranges.flatMap fun (gap, len) => [gap, len]
  | .resetStream streamId errorCode finalSize => [streamId, errorCode, finalSize]
  | .stopSending streamId errorCode => [streamId, errorCode]
  | .crypto offset data => [offset, data.length]
  | .newToken token => [token.length]
  | .stream streamId offset data _ => [streamId, offset, data.length]
  | .maxData max => [max]
  | .maxStreamData streamId max => [streamId, max]
  | .maxStreams _ max => [max]
  | .dataBlocked limit => [limit]
  | .streamDataBlocked streamId limit => [streamId, limit]
  | .newConnectionId seq retire _ _ => [seq, retire]
  | .retireConnectionId seq => [seq]
  | .pathChallenge _ => []
  | .pathResponse _ => []
  | .connectionClose errorCode frameType reason =>
    [errorCode, frameType, (asBytes reason).length]
  | .handshakeDone => []

/-- An integer that stands there under a condition, and is 0 otherwise. -/
theorem optional_total (c : Prop) [Decidable c] :
    Total (if c then varint else pure 0) fun _ => True := by
  split_ifs
  · exact varint_total.mono fun _ _ => trivial
  · exact Total.pure trivial

/-- A STREAM frame behind its type. -/
theorem streamBody_total (frameType : UInt8) : (streamBody frameType).Total fun _ => True := by
  have hlength : Total (if frameType &&& 0x02 ≠ 0 then varint else left) (· < 2 ^ 63) := by
    split_ifs
    · exact varint_total.mono fun n hn => hn.trans (by omega)
    · exact left_total
  apply varint_total.bind
  intro streamId _
  apply (optional_total _).bind
  intro offset _
  apply hlength.bind
  intro length hlt
  exact (body_total hlt _).bind fun _ _ => Total.pure trivial

/-- Behind every type the decoder returns. -/
theorem frameBody_total (frameType : UInt8) : (frameBody frameType).Total fun _ => True := by
  have hack : Total (do
      let largest ← varint
      let delay ← varint
      let rangeCount ← varint
      let ranges ← range.times rangeCount
      return QuicFrame.ack largest delay ranges) fun _ => True :=
    varint_total.bind fun _ _ => varint_total.bind fun _ _ => varint_total.bind fun n _ =>
      (range_total.times n).bind fun _ _ => Total.pure trivial
  have hbody : ∀ length, length < 2 ^ 62 → ∀ truncated,
      (body length truncated).Total fun _ => True :=
    fun length hlt truncated => body_total (hlt.trans (by omega)) truncated
  have hone : ∀ g : Nat → QuicFrame, Total (do return g (← varint)) fun _ => True :=
    fun g => varint_total.bind fun _ _ => Total.pure trivial
  have htwo : ∀ g : Nat → Nat → QuicFrame,
      Total (do return g (← varint) (← varint)) fun _ => True :=
    fun g => varint_total.bind fun _ _ => varint_total.bind fun _ _ => Total.pure trivial
  have hclose : Total (do
      let errorCode ← varint
      let frameTypeVal ← (if frameType = 0x1C then varint else pure 0)
      let rlen ← varint
      let text ← reason rlen
      return QuicFrame.connectionClose errorCode frameTypeVal text) fun _ => True :=
    varint_total.bind fun _ _ => (optional_total _).bind fun _ _ =>
      varint_total.bind fun _ hlt => (reason_total hlt).bind fun _ _ => Total.pure trivial
  unfold frameBody
  split
  · exact Total.pure trivial
  · exact Total.pure trivial
  · exact hack
  · exact hack
  · exact varint_total.bind fun _ _ => htwo _
  · exact htwo _
  · exact varint_total.bind fun _ _ => varint_total.bind fun n hn =>
      (hbody n hn _).bind fun _ _ => Total.pure trivial
  · exact varint_total.bind fun n hn => (hbody n hn _).bind fun _ _ => Total.pure trivial
  iterate 8 exact streamBody_total frameType
  · exact hone _
  · exact htwo _
  · exact hone _
  · exact hone _
  · exact hone _
  · exact htwo _
  · exact varint_total.bind fun _ _ => varint_total.bind fun _ _ =>
      cidAndToken_total.bind fun _ _ => Total.pure trivial
  · exact hone _
  · exact (block_total 8 _).bind fun _ _ => Total.pure trivial
  · exact (block_total 8 _).bind fun _ _ => Total.pure trivial
  · exact hclose
  · exact hclose
  · exact Total.pure trivial
  · exact Total.fail _ _

theorem streamType_bits (offset : Nat) (fin : Bool) :
    (streamType offset fin &&& 0x04 ≠ 0 ↔ offset > 0) ∧ streamType offset fin &&& 0x02 ≠ 0 ∧
      decide (streamType offset fin &&& 0x01 ≠ 0) = fin ∧
      frameBody (streamType offset fin) = streamBody (streamType offset fin) := by
  by_cases hoffset : offset > 0
  · simp only [streamType, hoffset]
    cases fin
    · exact ⟨by decide, by decide, by decide, rfl⟩
    · exact ⟨by decide, by decide, by decide, rfl⟩
  · simp only [streamType, hoffset]
    cases fin
    · exact ⟨by decide, by decide, by decide, rfl⟩
    · exact ⟨by decide, by decide, by decide, rfl⟩

theorem stream_parses {streamId offset : Nat} {data : Bytes} (fin : Bool)
    (hid : streamId < 2 ^ 62) (hoffset : offset < 2 ^ 62) (hdata : data.length < 2 ^ 62) :
    (streamBody (streamType offset fin)).Parses
      (encodeVarint streamId ++ ((if offset > 0 then encodeVarint offset else []) ++
        (encodeVarint data.length ++ data)))
      (.stream streamId offset data fin) := by
  obtain ⟨hoff, hlen, hfin, -⟩ := streamType_bits offset fin
  have hopt : Parses (if streamType offset fin &&& 0x04 ≠ 0 then varint else pure 0)
      (if offset > 0 then encodeVarint offset else []) offset := by
    by_cases hpos : offset > 0
    · rw [if_pos hpos, if_pos (hoff.mpr hpos)]
      exact varint_parses hoffset
    · rw [if_neg hpos, if_neg fun hbit => hpos (hoff.mp hbit)]
      obtain rfl : offset = 0 := by omega
      exact Parses.pure 0
  unfold streamBody
  rw [hfin]
  simp only [if_pos hlen]
  exact (varint_parses hid).bind
    (hopt.bind ((varint_parses hdata).bind (body_parses data _).map))

/-- A frame is read back behind its type. -/
theorem frameBody_parses (f : QuicFrame) (h : ∀ n ∈ f.ints, n < 2 ^ 62) :
    ∃ frameType bs, encodeFrame f = frameType :: bs ∧ (frameBody frameType).Parses bs f := by
  cases f <;> simp only [QuicFrame.ints, List.forall_mem_cons, List.cons_append] at h
  case padding => exact ⟨0x00, [], rfl, Parses.pure _⟩
  case ping => exact ⟨0x01, [], rfl, Parses.pure _⟩
  case ack largest delay ranges =>
    obtain ⟨hlargest, hdelay, hcount, hranges⟩ := h
    have hrange : ∀ r ∈ ranges, range.Parses (encodeVarint r.1 ++ encodeVarint r.2) r := by
      intro r hr
      apply range_parses
      · exact hranges r.1 (List.mem_flatMap.mpr ⟨r, hr, List.mem_cons_self⟩)
      · exact hranges r.2 (List.mem_flatMap.mpr ⟨r, hr, by simp⟩)
    exact ⟨0x02, _, rfl, (varint_parses hlargest).bind ((varint_parses hdelay).bind
      ((varint_parses hcount).bind (Parses.times hrange).map))⟩
  case resetStream streamId errorCode finalSize =>
    obtain ⟨hid, hcode, hsize, -⟩ := h
    exact ⟨0x04, _, rfl,
      (varint_parses hid).bind ((varint_parses hcode).bind (varint_parses hsize).map)⟩
  case stopSending streamId errorCode =>
    obtain ⟨hid, hcode, -⟩ := h
    exact ⟨0x05, _, rfl, (varint_parses hid).bind (varint_parses hcode).map⟩
  case crypto offset data =>
    obtain ⟨hoffset, hlen, -⟩ := h
    exact ⟨0x06, _, rfl, (varint_parses hoffset).bind
      ((varint_parses hlen).bind (body_parses data _).map)⟩
  case newToken token =>
    exact ⟨0x07, _, rfl, (varint_parses h.1).bind (body_parses token _).map⟩
  case stream streamId offset data fin =>
    obtain ⟨hid, hoffset, hlen, -⟩ := h
    refine ⟨streamType offset fin, _, rfl, ?_⟩
    rw [(streamType_bits offset fin).2.2.2]
    exact stream_parses fin hid hoffset hlen
  case maxData max => exact ⟨0x10, _, rfl, (varint_parses h.1).map⟩
  case maxStreamData streamId max =>
    exact ⟨0x11, _, rfl, (varint_parses h.1).bind (varint_parses h.2.1).map⟩
  case maxStreams bidi max =>
    cases bidi
    · exact ⟨0x13, _, rfl, (varint_parses h.1).map⟩
    · exact ⟨0x12, _, rfl, (varint_parses h.1).map⟩
  case dataBlocked limit => exact ⟨0x14, _, rfl, (varint_parses h.1).map⟩
  case streamDataBlocked streamId limit =>
    exact ⟨0x15, _, rfl, (varint_parses h.1).bind (varint_parses h.2.1).map⟩
  case newConnectionId seq retire cid token =>
    obtain ⟨hseq, hretire, -⟩ := h
    exact ⟨0x18, _, rfl, (varint_parses hseq).bind
      ((varint_parses hretire).bind (cidAndToken_parses cid token).map)⟩
  case retireConnectionId seq => exact ⟨0x19, _, rfl, (varint_parses h.1).map⟩
  case pathChallenge data => exact ⟨0x1A, _, rfl, (block_parses data _).map⟩
  case pathResponse data => exact ⟨0x1B, _, rfl, (block_parses data _).map⟩
  case connectionClose errorCode frameType text =>
    obtain ⟨hcode, htype, hlen, -⟩ := h
    exact ⟨0x1C, _, rfl, (varint_parses hcode).bind ((varint_parses htype).bind
      ((varint_parses hlen).bind (reason_parses text).map))⟩
  case handshakeDone => exact ⟨0x1E, [], rfl, Parses.pure _⟩

/-- A frame whose integers are below 2^62 is read back from its encoding, with the length of the
encoding, whatever follows. On every slice the decoder returns and consumes at most the slice. -/
theorem decodeFrame_spec :
    (∀ (f : QuicFrame) (r : Bytes) (data : Buffer), data.1 = encodeFrame f ++ r →
      (∀ n ∈ f.ints, n < 2 ^ 62) →
      decodeFrame data = .ok (.ok (f, (encodeFrame f).length))) ∧
    ∀ data : Buffer, ∃ result, decodeFrame data = .ok result ∧
      ∀ f consumed, result = .ok (f, consumed) → consumed ≤ data.1.length := by
  constructor
  · intro f r data hdata hints
    obtain ⟨frameType, bs, henc, hparses⟩ := frameBody_parses f hints
    rw [henc, List.cons_append] at hdata
    have hread := hparses data r 1 (by rw [hdata, List.length_cons]; omega) (by rw [hdata]; rfl)
    rw [decodeFrame, hdata, List.isEmpty_cons, if_neg Bool.false_ne_true, henc, List.length_cons,
      Nat.add_comm]
    exact hread
  · intro data
    by_cases hempty : data.1.isEmpty
    · refine ⟨.error "empty frame data", by rw [decodeFrame, if_pos hempty]; rfl, ?_⟩
      intro f consumed h
      cases h
    · have hpos : 0 < data.1.length := by
        rwa [List.length_pos_iff, ← List.isEmpty_eq_false_iff, ← Bool.not_eq_true]
      rw [decodeFrame, if_neg hempty, index_eq_ok hpos, ok_bind]
      obtain ⟨e, he⟩ | ⟨f, pos, hf, -, hle, -⟩ := frameBody_total data.1[0] data 1 hpos
      · rw [he]
        exact ⟨_, rfl, fun f consumed h => by cases h⟩
      · rw [hf]
        refine ⟨_, rfl, fun f' consumed h => ?_⟩
        cases h
        exact hle

/-- A STREAM frame with an offset, at the end of a stream, and one byte behind it. -/
theorem decodeFrame_stream :
    decodeFrame ⟨[0x0F, 4, 10, 2, 1, 2, 7], by decide⟩ =
      .ok (.ok (.stream 4 10 [1, 2] true, 6)) :=
  decodeFrame_spec.1 (.stream 4 10 [1, 2] true) [7] _ rfl (by decide)

end MerlionKernel.Quic
