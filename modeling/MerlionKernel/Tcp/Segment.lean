import MerlionKernel.Tcp.Socket
import MerlionKernel.Theory.OnesComplement

/-!
# Building segments

`build_tcp_packet` of `tcp_real.rs` with the checksums of `tcp_real.rs` and `netstack.rs`. The
checksum of a segment is taken with zeros in its own field, so that filling it in raises the sum of
the words by the checksum to a multiple of 65535, which is what a receiver looks for.
-/

namespace MerlionKernel.Tcp

open Rust Net Theory

/-- `DEFAULT_WINDOW`. -/
def defaultWindow : UInt16 := 8192

/-- The 16-bit words of the data; a byte that is left is the high byte of the last word. -/
def words : Bytes → List Nat
  | b₀ :: b₁ :: rest => fromBe [b₀, b₁] :: words rest
  | [b] => [b.toNat <<< 8]
  | [] => []

/-- The loop of `ip_checksum` over the words. -/
def addWords : List Nat → Nat → Exec Nat
  | [], sum => return sum
  | w :: ws, sum => do addWords ws (← u32 (sum + w))

/-- `ip_checksum`. -/
def ipChecksum (data : Bytes) : Exec UInt16 := do
  let sum ← addWords (words data) 0
  return ~~~(UInt16.ofNat (foldCarry sum))

/-- The pseudo-header of `tcp_checksum`. -/
def pseudoHeader (srcIp dstIp : Ipv4Addr) (tcpLen : UInt16) : Bytes :=
  srcIp.octets ++ dstIp.octets ++ [0, ipProtoTcp] ++ toBe 2 tcpLen.toNat

/-- `tcp_checksum`. -/
def tcpChecksum (srcIp dstIp : Ipv4Addr) (tcpData : Bytes) : Exec UInt16 :=
  ipChecksum (pseudoHeader srcIp dstIp (UInt16.ofNat tcpData.length) ++ tcpData)

section

variable (srcIp dstIp : Ipv4Addr) (srcPort dstPort : UInt16) (seq ack : UInt32) (flags : UInt8)
  (payload : Bytes)

/-- The fields in front of the checksum. -/
def fieldsBefore : Bytes :=
  toBe 2 srcPort.toNat ++ (toBe 2 dstPort.toNat ++ (toBe 4 seq.toNat ++ (toBe 4 ack.toNat ++
    ([(UInt8.ofNat tcpHeaderLen / 4) <<< 4, flags] ++ toBe 2 defaultWindow.toNat))))

/-- The segment with the given checksum. -/
def segmentWith (checksum : UInt16) : Bytes :=
  fieldsBefore srcPort dstPort seq ack flags ++
    (toBe 2 checksum.toNat ++ (toBe 2 (0 : UInt16).toNat ++ payload))

/-- `build_tcp_packet`. -/
def buildTcpPacket : Exec Bytes := do
  let cksum ← tcpChecksum srcIp dstIp (segmentWith srcPort dstPort seq ack flags payload 0)
  return segmentWith srcPort dstPort seq ack flags payload cksum

end

/-! ### Sums of words -/

theorem words_le (data : Bytes) : ∀ w ∈ words data, w ≤ 65535 := by
  fun_induction words data with
  | case1 b₀ b₁ rest ih =>
    refine List.forall_mem_cons.mpr ⟨?_, ih⟩
    have hlt : fromBe [b₀, b₁] < 256 ^ 2 := fromBe_lt [b₀, b₁]
    omega
  | case2 b =>
    have hlt := b.toNat_lt
    rw [List.forall_mem_singleton, Nat.shiftLeft_eq]
    omega
  | case3 => exact List.forall_mem_nil _

theorem length_words (data : Bytes) : (words data).length = (data.length + 1) / 2 := by
  fun_induction words data with
  | case1 b₀ b₁ rest ih =>
    simp only [List.length_cons, ih]
    omega
  | case2 b => simp
  | case3 => rfl

theorem words_append {front : Bytes} (hfront : front.length % 2 = 0) (rest : Bytes) :
    words (front ++ rest) = words front ++ words rest := by
  fun_induction words front with
  | case1 b₀ b₁ front ih =>
    rw [List.cons_append, List.cons_append, words, ih, List.cons_append]
    simp only [List.length_cons] at hfront
    omega
  | case2 b => simp at hfront
  | case3 => rfl

theorem words_toBe (x : UInt16) : words (toBe 2 x.toNat) = [x.toNat] := by
  have hwords : words (toBe 2 x.toNat) = [fromBe (toBe 2 x.toNat)] := rfl
  rw [hwords, fromBe_toBe, Nat.mod_eq_of_lt (by exact x.toNat_lt)]

theorem addWords_eq_ok {ws : List Nat} {sum : Nat} (h : sum + total ws < 2 ^ 32) :
    addWords ws sum = .ok (sum + total ws) := by
  induction ws generalizing sum with
  | nil => rfl
  | cons w ws ih =>
    rw [total] at h ⊢
    rw [addWords, u32_eq_ok (by omega), ok_bind, ih (by omega), Nat.add_assoc]

/-- The checksum of data that is short enough completes its sum to a multiple of 65535. -/
theorem ipChecksum_spec {data : Bytes} (h : data.length < 2 ^ 17) :
    Returns (ipChecksum data) fun cksum =>
      (total (words data) + cksum.toNat) % 65535 = 0 := by
  have hle := total_le (words_le data)
  rw [length_words] at hle
  rw [ipChecksum, addWords_eq_ok (by omega), ok_bind, Nat.zero_add]
  apply Returns.ok
  obtain ⟨hmax, hmod⟩ := foldCarry_spec (total (words data))
  have hsize : UInt16.size = 65536 := rfl
  rw [UInt16.toNat_not, UInt16.toNat_ofNat', hsize]
  omega

/-! ### Reading the segment -/

section

variable {data front rest : Bytes} {off : Nat}

theorem u16At_of_eq (x : UInt16) (h : data = front ++ (toBe 2 x.toNat ++ rest))
    (hoff : front.length = off) : u16At data off = .ok x := by
  rw [h, ← hoff]
  exact u16At_toBe x

theorem u32At_of_eq (x : UInt32) (h : data = front ++ (toBe 4 x.toNat ++ rest))
    (hoff : front.length = off) : u32At data off = .ok x := by
  rw [h, ← hoff]
  exact u32At_toBe x

end

variable (srcPort dstPort : UInt16) (seq ack : UInt32) (flags : UInt8) (payload : Bytes)
  (checksum : UInt16)

theorem length_fieldsBefore : (fieldsBefore srcPort dstPort seq ack flags).length = 16 := by
  simp [fieldsBefore]

theorem length_segmentWith :
    (segmentWith srcPort dstPort seq ack flags payload checksum).length =
      tcpHeaderLen + payload.length := by
  simp only [segmentWith, List.length_append, length_fieldsBefore, length_toBe, tcpHeaderLen]
  omega

/-- The data offset and the flags. -/
def offsetFlags (flags : UInt8) : UInt16 := UInt16.ofNat (0x5000 + flags.toNat)

theorem toBe_offsetFlags :
    toBe 2 (offsetFlags flags).toNat = [(UInt8.ofNat tcpHeaderLen / 4) <<< 4, flags] := by
  revert flags
  exact forall_uint8 (by decide +kernel)

theorem parseTcpHeader_segmentWith :
    parseTcpHeader (segmentWith srcPort dstPort seq ack flags payload checksum) = .ok (some
      { srcPort, dstPort, seq, ack, dataOffsetFlags := offsetFlags flags,
        window := defaultWindow, checksum, urgent := 0 }) := by
  have hlen := length_segmentWith srcPort dstPort seq ack flags payload checksum
  have hsegment : segmentWith srcPort dstPort seq ack flags payload checksum =
      toBe 2 srcPort.toNat ++ (toBe 2 dstPort.toNat ++ (toBe 4 seq.toNat ++ (toBe 4 ack.toNat ++
        (toBe 2 (offsetFlags flags).toNat ++ (toBe 2 defaultWindow.toNat ++
          (toBe 2 checksum.toNat ++ (toBe 2 (0 : UInt16).toNat ++ payload))))))) := by
    simp only [segmentWith, fieldsBefore, toBe_offsetFlags, List.append_assoc]
  generalize segmentWith srcPort dstPort seq ack flags payload checksum = data at hlen hsegment
  -- Each field is read behind those that were written before it.
  have hsrc : u16At data 0 = .ok srcPort := @u16At_of_eq _ [] _ _ srcPort hsegment rfl
  have hdst : u16At data 2 = .ok dstPort := u16At_of_eq dstPort hsegment (by simp)
  rw [← List.append_assoc] at hsegment
  have hseq : u32At data 4 = .ok seq := u32At_of_eq seq hsegment (by simp)
  rw [← List.append_assoc] at hsegment
  have hack : u32At data 8 = .ok ack := u32At_of_eq ack hsegment (by simp)
  rw [← List.append_assoc] at hsegment
  have hflags : u16At data 12 = .ok (offsetFlags flags) := u16At_of_eq _ hsegment (by simp)
  rw [← List.append_assoc] at hsegment
  have hwindow : u16At data 14 = .ok defaultWindow := u16At_of_eq _ hsegment (by simp)
  rw [← List.append_assoc] at hsegment
  have hchecksum : u16At data 16 = .ok checksum := u16At_of_eq _ hsegment (by simp)
  rw [← List.append_assoc] at hsegment
  have hurgent : u16At data 18 = .ok 0 := u16At_of_eq _ hsegment (by simp)
  rw [parseTcpHeader, if_neg (by omega), hsrc, hdst, hseq, hack, hflags, hwindow, hchecksum,
    hurgent]
  rfl

theorem segmentPayload_segmentWith :
    segmentPayload (segmentWith srcPort dstPort seq ack flags payload checksum) = .ok payload := by
  have hlen := length_segmentWith srcPort dstPort seq ack flags payload checksum
  have hheader : tcpHeaderLen = 20 := rfl
  have hoffset : index (segmentWith srcPort dstPort seq ack flags payload checksum) 12 =
      .ok 0x50 := rfl
  have hdrop : (segmentWith srcPort dstPort seq ack flags payload checksum).drop 20 = payload := by
    simp only [segmentWith, ← List.append_assoc]
    apply List.drop_left'
    simp [length_fieldsBefore]
  rw [segmentPayload, if_neg (by omega), hoffset, ok_bind]
  dsimp only
  have htwenty : ((0x50 : UInt8) >>> 4).toNat * 4 = 20 := rfl
  rw [htwenty]
  split_ifs with hend
  · rw [← hdrop, List.drop_of_length_le hend]
    rfl
  · rw [slice_to_end (by omega), hdrop]

/-- Where the checksum stands, it is one of the words. -/
theorem total_segmentWith :
    total (words (segmentWith srcPort dstPort seq ack flags payload checksum)) =
      total (words (segmentWith srcPort dstPort seq ack flags payload 0)) + checksum.toNat := by
  have hsum : ∀ x, total (words (segmentWith srcPort dstPort seq ack flags payload x)) =
      total (words (fieldsBefore srcPort dstPort seq ack flags)) + (x.toNat +
        total (words (toBe 2 (0 : UInt16).toNat ++ payload))) := by
    intro x
    rw [segmentWith, words_append (by rw [length_fieldsBefore]), total_append,
      words_append (by rw [length_toBe]), words_toBe]
    rfl
  rw [hsum, hsum, UInt16.toNat_zero]
  omega

/-- A segment whose length fits into 16 bits is parsed back, and its checksum verifies: the words of
the pseudo-header and the segment sum up to `0xFFFF`. -/
theorem buildTcpPacket_spec (srcIp dstIp : Ipv4Addr)
    (hfits : tcpHeaderLen + payload.length < 2 ^ 16) :
    ∃ segment checksum,
      buildTcpPacket srcIp dstIp srcPort dstPort seq ack flags payload = .ok segment ∧
      parseTcpHeader segment = .ok (some
        { srcPort, dstPort, seq, ack, dataOffsetFlags := offsetFlags flags,
          window := defaultWindow, checksum, urgent := 0 }) ∧
      segmentPayload segment = .ok payload ∧
      onesSum (words (pseudoHeader srcIp dstIp (UInt16.ofNat segment.length) ++ segment)) =
        0xFFFF := by
  have hlen := fun x => length_segmentWith srcPort dstPort seq ack flags payload x
  have hpseudo : ∀ n, (pseudoHeader srcIp dstIp n).length = 12 := by
    intro n
    simp [pseudoHeader, Ipv4Addr.octets]
  have hspec : Returns (tcpChecksum srcIp dstIp
      (segmentWith srcPort dstPort seq ack flags payload 0)) _ :=
    ipChecksum_spec (by rw [List.length_append, hpseudo, hlen]; omega)
  obtain ⟨cksum, hcksum, hmod⟩ := hspec
  refine ⟨_, cksum, ?_, parseTcpHeader_segmentWith _ _ _ _ _ _ _,
    segmentPayload_segmentWith _ _ _ _ _ _ _, ?_⟩
  · rw [buildTcpPacket, hcksum]
    rfl
  · apply onesSum_eq_max (words_le _)
    · rw [words_append (by rw [hpseudo]), total_append] at hmod ⊢
      rw [total_segmentWith, hlen, ← hlen 0, ← Nat.add_assoc]
      exact hmod
    · -- The protocol number alone is not zero.
      rw [words_append (by rw [hpseudo]), total_append]
      have hproto : ∀ n, total (words (pseudoHeader srcIp dstIp n)) ≠ 0 := by
        intro n
        rw [pseudoHeader, words_append (by simp [Ipv4Addr.octets]), total_append,
          words_append (by simp [Ipv4Addr.octets]), total_append]
        have hsix : total (words [0, ipProtoTcp]) = 6 := rfl
        omega
      exact fun h => hproto _ (Nat.add_eq_zero_iff.mp h).1

theorem buildTcpPacket_spec_odd :
    ∃ segment checksum,
      buildTcpPacket ⟨10, 0, 0, 1⟩ ⟨10, 0, 0, 2⟩ 80 4000 7 9 tcpAck [1, 2, 3] = .ok segment ∧
      parseTcpHeader segment = .ok (some
        { srcPort := 80, dstPort := 4000, seq := 7, ack := 9,
          dataOffsetFlags := offsetFlags tcpAck, window := defaultWindow, checksum,
          urgent := 0 }) ∧
      segmentPayload segment = .ok [1, 2, 3] ∧
      onesSum (words (pseudoHeader ⟨10, 0, 0, 1⟩ ⟨10, 0, 0, 2⟩ (UInt16.ofNat segment.length) ++
        segment)) = 0xFFFF :=
  buildTcpPacket_spec 80 4000 7 9 tcpAck [1, 2, 3] ⟨10, 0, 0, 1⟩ ⟨10, 0, 0, 2⟩ (by decide)

end MerlionKernel.Tcp
