import MerlionKernel.Quic.Coding
import MerlionKernel.Rust.Cursor

/-!
# QUIC packets

The packets of `quic.rs` and their encoding. A long header carries the version and both connection
identifiers with their lengths, and a short one only the destination, without its length; the packet
number is cut to four bytes in either. A packet is read back when nothing of it is lost in this.
-/

namespace MerlionKernel.Quic

open Rust

/-- `QUIC_VERSION_1`. -/
def quicVersion1 : UInt32 := 1

/-- The types of packets; all but the last have long headers. -/
inductive PacketType
  | initial
  | zeroRtt
  | handshake
  | retry
  | short
  deriving DecidableEq

/-- A packet. The packet number is a `u64`. -/
structure QuicPacket where
  packetType : PacketType
  version : UInt32
  dcid : ConnectionId
  scid : ConnectionId
  packetNumber : Nat
  payload : Bytes

/-! ### Encoding -/

/-- The bits of a long header that give the type. -/
def PacketType.typeBits : PacketType → UInt8
  | .initial => 0x00
  | .zeroRtt => 0x01
  | .handshake => 0x02
  | .retry => 0x03
  | .short => 0x00

/-- An identifier behind its length. -/
def encodeCid (cid : ConnectionId) : Bytes := UInt8.ofNat cid.len :: cid.asBytes

/-- Encode a packet into bytes. -/
def encodePacket (p : QuicPacket) : Bytes :=
  match p.packetType with
  | .short =>
    ((0x40 : UInt8) ||| UInt8.ofNat (min p.packetNumber 3)) ::
      (p.dcid.asBytes ++ (toBe 4 p.packetNumber ++ p.payload))
  | _ =>
    ((0xC0 : UInt8) ||| (p.packetType.typeBits <<< 4)) ::
      (toBe 4 p.version.toNat ++ (encodeCid p.dcid ++ (encodeCid p.scid ++
        (toBe 4 p.packetNumber ++ (encodeVarint p.payload.length ++ p.payload)))))

/-! ### Decoding -/

/-- The empty identifier, into which the first of the bytes are copied. -/
def copyCid (bs : Bytes) : ConnectionId := .copied (bs.take 8) (List.length_take_le 8 bs)

/-- The type that the bits of a long header give. -/
def packetTypeOf (typeBits : UInt8) : Option PacketType :=
  match typeBits.toNat with
  | 0 => some .initial
  | 1 => some .zeroRtt
  | 2 => some .handshake
  | 3 => some .retry
  | _ => none

/-- The payload behind a long header: as long as its length says, as far as the data goes. -/
def longPayload (data : Bytes) (payloadOff : Nat) : Exec Bytes :=
  if payloadOff < data.length then do
    match ← decodeVarint (← slice data payloadOff data.length) with
    | .ok (len, consumed) =>
      let start := payloadOff + consumed
      let end' := min (← u64 (start + len)) data.length
      slice data start end'
    | .error _ => slice data payloadOff data.length
  else return []

/-- A packet with a long header. -/
def decodeLong (data : Bytes) (first : UInt8) : Exec (Except String QuicPacket) := do
  if data.length < 7 then return .error "packet too short for long header"
  match packetTypeOf ((first >>> 4) &&& 0x03) with
  | none => return .error "unknown packet type"
  | some packetType =>
    let version := UInt32.ofNat (fromBe (← bytesAt data 1 4))
    let dcidLen := (← index data 5).toNat
    if data.length < 6 + dcidLen + 1 then return .error "packet truncated at DCID"
    let dcid := copyCid (← bytesAt data 6 (min dcidLen 8))
    let scidOff := 6 + dcidLen
    let scidLen := (← index data scidOff).toNat
    if data.length < scidOff + 1 + scidLen + 4 then return .error "packet truncated at SCID"
    let scid := copyCid (← bytesAt data (scidOff + 1) (min scidLen 8))
    let pnOff := scidOff + 1 + scidLen
    if data.length < pnOff + 4 then return .error "packet truncated at packet number"
    let packetNumber := fromBe (← bytesAt data pnOff 4)
    let payload ← longPayload data (pnOff + 4)
    return .ok { packetType, version, dcid, scid, packetNumber, payload }

/-- A packet with a short header; its identifier is taken to have eight bytes, if there are so
many. -/
def decodeShort (data : Bytes) : Exec (Except String QuicPacket) := do
  if data.length < 5 then return .error "packet too short for short header"
  let dcidLen := min 8 (data.length - 5)
  let dcid := copyCid (← bytesAt data 1 dcidLen)
  let pnOff := 1 + dcidLen
  let packetNumber ←
    (if data.length ≥ pnOff + 4 then do return fromBe (← bytesAt data pnOff 4) else return 0)
  let payloadOff := pnOff + 4
  let payload ← (if payloadOff < data.length then slice data payloadOff data.length else return [])
  return .ok {
    packetType := .short
    version := quicVersion1
    dcid
    scid := copyCid []
    packetNumber
    payload }

/-- Decode a packet from bytes. -/
def decodePacket (data : Bytes) : Exec (Except String QuicPacket) :=
  if data.isEmpty then return .error "empty packet"
  else do
    let first ← index data 0
    if first &&& 0x80 ≠ 0 then decodeLong data first else decodeShort data

/-! ### Every slice is decoded -/

theorem longPayload_returns {data : Buffer} {off : Nat} (hoff : off ≤ data.1.length) :
    ∃ payload, longPayload data.1 off = .ok payload := by
  have hbound := data.2
  unfold longPayload
  by_cases hlt : off < data.1.length
  · rw [if_pos hlt, slice_to_end hoff, ok_bind]
    rcases decodeVarint_total (data.1.drop off) with ⟨e, he⟩ | ⟨len, consumed, hok, hle, hlen⟩
    · rw [he, ok_bind]
      exact ⟨_, rfl⟩
    · rw [List.length_drop] at hle
      rw [hok, ok_bind]
      dsimp only
      rw [u64_eq_ok (by omega), ok_bind]
      exact ⟨_, slice_eq_ok (by omega) (by omega)⟩
  · rw [if_neg hlt]
    exact ⟨_, rfl⟩

theorem decodeLong_returns (data : Buffer) (first : UInt8) :
    ∃ result, decodeLong data.1 first = .ok result := by
  unfold decodeLong
  by_cases hshort : data.1.length < 7
  · rw [if_pos hshort]
    exact ⟨_, rfl⟩
  rw [if_neg hshort]
  cases packetTypeOf ((first >>> 4) &&& 0x03) with
  | none => exact ⟨_, rfl⟩
  | some packetType =>
    dsimp only
    rw [bytesAt_eq_ok (by omega), ok_bind, index_eq_ok (by omega), ok_bind]
    generalize (data.1[5]).toNat = dcidLen
    by_cases hdcid : data.1.length < 6 + dcidLen + 1
    · rw [if_pos hdcid]
      exact ⟨_, rfl⟩
    rw [if_neg hdcid, bytesAt_eq_ok (by omega), ok_bind, index_eq_ok (by omega), ok_bind]
    generalize (data.1[6 + dcidLen]).toNat = scidLen
    by_cases hscid : data.1.length < 6 + dcidLen + 1 + scidLen + 4
    · rw [if_pos hscid]
      exact ⟨_, rfl⟩
    obtain ⟨payload, hpayload⟩ :=
      longPayload_returns (show 6 + dcidLen + 1 + scidLen + 4 ≤ data.1.length by omega)
    rw [if_neg hscid, bytesAt_eq_ok (by omega), ok_bind, if_neg hscid, bytesAt_eq_ok (by omega),
      ok_bind, hpayload]
    exact ⟨_, rfl⟩

/-- What a short header and what follows it are read as. -/
theorem decodeShort_eq_ok {data : Bytes} (h : 5 ≤ data.length) :
    decodeShort data = .ok (.ok {
      packetType := .short
      version := quicVersion1
      dcid := copyCid (window data 1 (min 8 (data.length - 5)))
      scid := copyCid []
      packetNumber := fromBe (window data (1 + min 8 (data.length - 5)) 4)
      payload := data.drop (1 + min 8 (data.length - 5) + 4) }) := by
  unfold decodeShort
  rw [if_neg (by omega)]
  dsimp only
  rw [bytesAt_eq_ok (by omega), ok_bind, if_pos (by omega), bytesAt_eq_ok (by omega), ok_bind]
  by_cases hlt : 1 + min 8 (data.length - 5) + 4 < data.length
  · rw [if_pos hlt, slice_to_end (by omega)]
    rfl
  · rw [if_neg hlt, List.drop_eq_nil_of_le (by omega)]
    rfl

theorem decodePacket_cons (first : UInt8) (rest : Bytes) :
    decodePacket (first :: rest) =
      if first &&& 0x80 ≠ 0 then decodeLong (first :: rest) first
      else decodeShort (first :: rest) := rfl

theorem decodePacket_returns (data : Buffer) : ∃ result, decodePacket data.1 = .ok result := by
  obtain ⟨bytes, hbound⟩ := data
  cases bytes with
  | nil => exact ⟨_, rfl⟩
  | cons first rest =>
    rw [decodePacket_cons]
    by_cases hlong : first &&& 0x80 ≠ 0
    · rw [if_pos hlong]
      exact decodeLong_returns ⟨first :: rest, hbound⟩ first
    · rw [if_neg hlong]
      by_cases hshort : 5 ≤ (first :: rest).length
      · exact ⟨_, decodeShort_eq_ok hshort⟩
      · rw [decodeShort, if_pos (by omega)]
        exact ⟨_, rfl⟩

/-! ### What is read back -/

theorem length_asBytes (cid : ConnectionId) : cid.asBytes.length = cid.len := by
  rw [ConnectionId.asBytes, List.length_take, cid.bytes.2, min_eq_left cid.len_le]

theorem copyCid_asBytes (cid : ConnectionId) : copyCid cid.asBytes = cid := by
  have hle : cid.asBytes.length ≤ 8 := length_asBytes cid ▸ cid.len_le
  unfold copyCid
  simp only [List.take_of_length_le hle]
  exact cid.copied_asBytes hle

theorem len_copyCid (bs : Bytes) : (copyCid bs).len = min 8 bs.length := List.length_take

theorem bytesAt_of_drop {data ys rest : Bytes} {pos : Nat} (hpos : pos ≤ data.length)
    (h : data.drop pos = ys ++ rest) : bytesAt data pos ys.length = .ok ys := by
  rw [bytesAt_eq_ok (le_of_drop hpos h), window, h, List.take_left]

/-- The packet can be told from its encoding. -/
def Representable (p : QuicPacket) : Prop :=
  p.packetNumber < 2 ^ 32 ∧
    match p.packetType with
    | .short => p.version = quicVersion1 ∧ p.scid = copyCid [] ∧ (p.dcid.len = 8 ∨ p.payload = [])
    | _ => p.payload.length < 2 ^ 62

theorem length_encodeVarint (val : Nat) :
    0 < (encodeVarint val).length ∧ (encodeVarint val).length ≤ 8 := by
  unfold encodeVarint
  split_ifs <;> simp [sized]

/-- A payload is read back behind its length exactly when the length has room in 62 bits. -/
theorem longPayload_encoded {data payload : Bytes} {off : Nat} (hoff : off < 2 ^ 32)
    (h : data.drop off = encodeVarint payload.length ++ payload) :
    longPayload data off = .ok payload ↔ payload.length < 2 ^ 62 := by
  obtain ⟨hpos, hsize⟩ := length_encodeVarint payload.length
  have hlen : off + (encodeVarint payload.length ++ payload).length = data.length :=
    length_of_drop h (by intro hnil; rw [List.append_eq_nil_iff] at hnil; simp [hnil.1] at hpos)
  rw [List.length_append] at hlen
  unfold longPayload
  rw [if_pos (by omega), slice_to_end (by omega), ok_bind]
  constructor
  · intro hpayload
    rcases decodeVarint_total (data.drop off) with ⟨e, he⟩ | ⟨len, consumed, hok, hle, hlt⟩
    · -- the length itself would be taken for payload
      rw [he, ok_bind, h] at hpayload
      have hsame := congrArg List.length (Except.ok.inj hpayload)
      rw [List.length_append] at hsame
      omega
    · rw [hok, ok_bind] at hpayload
      obtain ⟨end', hend, hpayload⟩ := bind_eq_ok_iff.mp hpayload
      obtain ⟨-, rfl⟩ := u64_eq_ok_iff.mp hend
      have hcut := length_of_slice hpayload
      omega
  · intro hroom
    rw [h, decodeVarint_encodeVarint hroom, ok_bind]
    dsimp only
    rw [u64_eq_ok (by omega), ok_bind, Nat.min_eq_right (by omega), slice_to_end (by omega),
      drop_add_of_drop h]

theorem toNat_ofNat_len (cid : ConnectionId) : (UInt8.ofNat cid.len).toNat = cid.len :=
  UInt8.toNat_ofNat_of_lt (Nat.lt_of_le_of_lt cid.len_le (by decide))

/-- The bytes of a long header with what follows it. -/
def longHeader (first : UInt8) (p : QuicPacket) (tail : Bytes) : Bytes :=
  first :: (toBe 4 p.version.toNat ++ (encodeCid p.dcid ++ (encodeCid p.scid ++
    (toBe 4 p.packetNumber ++ tail))))

/-- A long header is read back, up to the cut packet number. -/
theorem decodeLong_longHeader {first : UInt8} {packetType : PacketType} (p : QuicPacket)
    (hfirst : packetTypeOf ((first >>> 4) &&& 0x03) = some packetType) (tail : Bytes) :
    ∃ off < 2 ^ 32, (longHeader first p tail).drop off = tail ∧
      decodeLong (longHeader first p tail) first = do
        let payload ← longPayload (longHeader first p tail) off
        return .ok { p with packetType, packetNumber := p.packetNumber % 2 ^ 32, payload } := by
  have hdlen := length_asBytes p.dcid
  have hslen := length_asBytes p.scid
  have hd8 := p.dcid.len_le
  have hs8 := p.scid.len_le
  generalize hdata : longHeader first p tail = data
  have hlength : data.length = 6 + p.dcid.len + 1 + p.scid.len + 4 + tail.length := by
    rw [← hdata]
    simp [longHeader, encodeCid, hdlen, hslen]
    omega
  -- what is left at each position
  have h1 : data.drop 1 = toBe 4 p.version.toNat ++ (encodeCid p.dcid ++ (encodeCid p.scid ++
      (toBe 4 p.packetNumber ++ tail))) := by rw [← hdata]; rfl
  have h5 : data.drop 5 = UInt8.ofNat p.dcid.len :: (p.dcid.asBytes ++ (encodeCid p.scid ++
      (toBe 4 p.packetNumber ++ tail))) := by
    have hdrop := drop_add_of_drop h1
    rwa [length_toBe] at hdrop
  have h6 := drop_succ_of_drop h5
  have hs := drop_add_of_drop h6
  rw [hdlen] at hs
  have hs1 := drop_succ_of_drop hs
  have hpn := drop_add_of_drop hs1
  rw [hslen] at hpn
  have htail := drop_add_of_drop hpn
  rw [length_toBe] at htail
  refine ⟨6 + p.dcid.len + 1 + p.scid.len + 4, by omega, htail, ?_⟩
  have hversion : bytesAt data 1 4 = .ok (toBe 4 p.version.toNat) := by
    have hread := bytesAt_of_drop (by omega) h1
    rwa [length_toBe] at hread
  have hdcid : bytesAt data 6 p.dcid.len = .ok p.dcid.asBytes := by
    have hread := bytesAt_of_drop (by omega) h6
    rwa [hdlen] at hread
  have hscid : bytesAt data (6 + p.dcid.len + 1) p.scid.len = .ok p.scid.asBytes := by
    have hread := bytesAt_of_drop (by omega) hs1
    rwa [hslen] at hread
  have hnumber : bytesAt data (6 + p.dcid.len + 1 + p.scid.len) 4 =
      .ok (toBe 4 p.packetNumber) := by
    have hread := bytesAt_of_drop (by omega) hpn
    rwa [length_toBe] at hread
  have hversion' : UInt32.ofNat (fromBe (toBe 4 p.version.toNat)) = p.version := by
    rw [fromBe_toBe, Nat.mod_eq_of_lt (show _ < 256 ^ 4 from p.version.toNat_lt),
      UInt32.ofNat_toNat]
  unfold decodeLong
  rw [if_neg (by omega), hfirst]
  dsimp only
  rw [hversion, ok_bind, index_of_drop h5, ok_bind, toNat_ofNat_len, if_neg (by omega),
    Nat.min_eq_left hd8, hdcid, ok_bind, index_of_drop hs, ok_bind, toNat_ofNat_len,
    if_neg (by omega), Nat.min_eq_left hs8, hscid, ok_bind, if_neg (by omega), hnumber, ok_bind,
    hversion', copyCid_asBytes, copyCid_asBytes, fromBe_toBe]
  rfl

/-- A packet with a long header is read back exactly when it is representable. -/
theorem decodeLong_encodePacket {p : QuicPacket} (h : p.packetType ≠ .short) :
    decodePacket (encodePacket p) = .ok (.ok p) ↔
      p.packetNumber < 2 ^ 32 ∧ p.payload.length < 2 ^ 62 := by
  obtain ⟨first, htype, hlong, hencode⟩ : ∃ first : UInt8,
      packetTypeOf ((first >>> 4) &&& 0x03) = some p.packetType ∧ first &&& 0x80 ≠ 0 ∧
      encodePacket p = longHeader first p (encodeVarint p.payload.length ++ p.payload) := by
    unfold encodePacket longHeader
    cases htype : p.packetType with
    | short => exact absurd htype h
    | initial => exact ⟨_, by decide, by decide, rfl⟩
    | zeroRtt => exact ⟨_, by decide, by decide, rfl⟩
    | handshake => exact ⟨_, by decide, by decide, rfl⟩
    | retry => exact ⟨_, by decide, by decide, rfl⟩
  obtain ⟨off, hoff, hdrop, hdecode⟩ :=
    decodeLong_longHeader p htype (encodeVarint p.payload.length ++ p.payload)
  have hpacket : decodePacket (encodePacket p) = decodeLong (encodePacket p) first := by
    rw [hencode, longHeader, decodePacket_cons, if_pos hlong]
  rw [hpacket, hencode, hdecode, ← longPayload_encoded hoff hdrop]
  constructor
  · intro hok
    obtain ⟨payload, hpayload, hok⟩ := bind_eq_ok_iff.mp hok
    have hsame := Except.ok.inj (Except.ok.inj hok)
    have hnumber : p.packetNumber % 2 ^ 32 = p.packetNumber := congrArg (·.packetNumber) hsame
    have hpayload' : payload = p.payload := congrArg (·.payload) hsame
    exact ⟨by omega, hpayload' ▸ hpayload⟩
  · rintro ⟨hnumber, hpayload⟩
    rw [hpayload, ok_bind, Nat.mod_eq_of_lt hnumber]
    rfl

/-- A packet with a short header is read back exactly when it is representable. -/
theorem decodeShort_encodePacket {p : QuicPacket} (h : p.packetType = .short) :
    decodePacket (encodePacket p) = .ok (.ok p) ↔
      p.packetNumber < 2 ^ 32 ∧ p.version = quicVersion1 ∧ p.scid = copyCid [] ∧
        (p.dcid.len = 8 ∨ p.payload = []) := by
  have hdlen := length_asBytes p.dcid
  have hd8 := p.dcid.len_le
  generalize hdata : encodePacket p = data
  have hencode : data = ((0x40 : UInt8) ||| UInt8.ofNat (min p.packetNumber 3)) ::
      (p.dcid.asBytes ++ (toBe 4 p.packetNumber ++ p.payload)) := by
    rw [← hdata, encodePacket, h]
  have hlength : data.length = 1 + p.dcid.len + 4 + p.payload.length := by
    rw [hencode]
    simp [hdlen]
    omega
  have hshort : ∀ n ≤ 3, ¬ ((0x40 : UInt8) ||| UInt8.ofNat n) &&& 0x80 ≠ 0 := by decide
  have hpacket : decodePacket data = decodeShort data := by
    rw [hencode, decodePacket_cons, if_neg (hshort _ (Nat.min_le_right _ _))]
  rw [hpacket, decodeShort_eq_ok (by omega), hlength]
  have h1 : data.drop 1 = p.dcid.asBytes ++ (toBe 4 p.packetNumber ++ p.payload) := by
    rw [hencode]
    rfl
  constructor
  · intro hok
    have hsame := Except.ok.inj (Except.ok.inj hok)
    have hnumber : fromBe (window data (1 + min 8 (1 + p.dcid.len + 4 + p.payload.length - 5)) 4) =
        p.packetNumber := congrArg (·.packetNumber) hsame
    have hdcid : copyCid (window data 1 (min 8 (1 + p.dcid.len + 4 + p.payload.length - 5))) =
        p.dcid := congrArg (·.dcid) hsame
    have hlt := fromBe_lt (window data (1 + min 8 (1 + p.dcid.len + 4 + p.payload.length - 5)) 4)
    have hlen := congrArg ConnectionId.len hdcid
    rw [length_window (by omega), hnumber] at hlt
    rw [len_copyCid, length_window (by omega)] at hlen
    refine ⟨hlt, (congrArg (·.version) hsame).symm, (congrArg (·.scid) hsame).symm, ?_⟩
    by_cases hfull : p.dcid.len = 8
    · exact .inl hfull
    · exact .inr (List.length_eq_zero_iff.mp (by omega))
  · rintro ⟨hnumber, hversion, hscid, hlen⟩
    have hall : min 8 (1 + p.dcid.len + 4 + p.payload.length - 5) = p.dcid.len := by
      rcases hlen with hfull | hnil
      · omega
      · rw [hnil, List.length_nil]
        omega
    have hpn := drop_add_of_drop h1
    rw [hdlen] at hpn
    have hpayload := drop_add_of_drop hpn
    rw [length_toBe] at hpayload
    have hcid : window data 1 p.dcid.len = p.dcid.asBytes := by
      rw [window, h1, ← hdlen, List.take_left]
    have hpn' : window data (1 + p.dcid.len) 4 = toBe 4 p.packetNumber := by
      rw [window, hpn]
      exact List.take_left' (length_toBe 4 _)
    rw [hall, hcid, hpn', hpayload, copyCid_asBytes, fromBe_toBe,
      Nat.mod_eq_of_lt (show _ < 256 ^ 4 from hnumber), ← hversion, ← hscid, ← h]

/-- The decoder returns on every slice, and a packet is read back exactly when it is
representable. -/
theorem decodePacket_spec (data : Buffer) (p : QuicPacket) :
    (∃ result, decodePacket data.1 = .ok result) ∧
      (decodePacket (encodePacket p) = .ok (.ok p) ↔ Representable p) := by
  refine ⟨decodePacket_returns data, ?_⟩
  unfold Representable
  cases htype : p.packetType with
  | short => exact decodeShort_encodePacket htype
  | initial => exact decodeLong_encodePacket (by rw [htype]; decide)
  | zeroRtt => exact decodeLong_encodePacket (by rw [htype]; decide)
  | handshake => exact decodeLong_encodePacket (by rw [htype]; decide)
  | retry => exact decodeLong_encodePacket (by rw [htype]; decide)

/-- A packet number of 33 bits is cut, and behind a short header a payload byte is taken into a
connection identifier of four bytes. -/
theorem packet_not_read_back :
    (∃ p, decodePacket (encodePacket
        ⟨.initial, 1, copyCid [1, 2, 3, 4], copyCid [5, 6, 7, 8], 2 ^ 32 + 7, []⟩) = .ok (.ok p) ∧
      p.packetNumber = 7) ∧
      ∃ p, decodePacket (encodePacket
        ⟨.short, 1, copyCid [1, 2, 3, 4], copyCid [], 7, [9]⟩) = .ok (.ok p) ∧ p.dcid.len = 5 :=
  ⟨⟨_, rfl, rfl⟩, _, rfl, rfl⟩

end MerlionKernel.Quic
