import MerlionKernel.Bpf.Vm
import MerlionKernel.Rust.Split

/-!
# Filter expressions

`compile_filter` of `bpf.rs` translates six kinds of expressions into programs that load header
fields at fixed places of the packet, those of an IP header of 20 bytes behind an Ethernet header,
and compare them. A load beyond the end of the packet gives 0. A program that asks for the value 0
therefore takes a field that is not there for one that matches; and where the IP header has options,
the ports are looked for among them.
-/

namespace MerlionKernel.Bpf

open Rust

/-- A filter expression that is supported. -/
inductive Filter
  | tcp
  | udp
  | icmp
  | port (p : UInt32)
  | host (ip : UInt32)
  | tcpPort (p : UInt32)

/-! ### Compiling -/

/-- `char::is_whitespace`. -/
def isWhitespace (c : Char) : Bool :=
  (9 ≤ c.toNat && c.toNat ≤ 13) || (0x2000 ≤ c.toNat && c.toNat ≤ 0x200A) ||
    [0x20, 0x85, 0xA0, 0x1680, 0x2028, 0x2029, 0x202F, 0x205F, 0x3000].contains c.toNat

/-- `expr.split_whitespace()`. -/
def splitWhitespace (expr : String) : List String :=
  ((expr.toList.splitOnP isWhitespace).filter (· ≠ [])).map String.ofList

/-- `p.parse()` for a port. -/
def parsePort (p : String) : Except String UInt32 :=
  match parseU32 p with
  | some n => .ok (UInt32.ofNat n)
  | none => .error "invalid port number"

/-- `part.parse()` for an octet. -/
def parseOctet (part : String) : Except String UInt8 :=
  match parseU8 part with
  | some n => .ok (UInt8.ofNat n)
  | none => .error "invalid IPv4 octet"

/-- `parse_ipv4`. -/
def parseIpv4 (s : String) : Except String Bytes :=
  let parts := split s '.'
  if parts.length ≠ 4 then .error "invalid IPv4 address" else parts.mapM parseOctet

/-- The expression that the words stand for. -/
def parseFilter (expr : String) : Except String Filter :=
  match splitWhitespace expr with
  | [] => .error "empty filter expression"
  | ["tcp"] => .ok .tcp
  | ["udp"] => .ok .udp
  | ["icmp"] => .ok .icmp
  | ["port", p] => do return .port (← parsePort p)
  | ["host", addr] => do return .host (UInt32.ofNat (fromBe (← parseIpv4 addr)))
  | ["tcp", "port", p] => do return .tcpPort (← parsePort p)
  | _ => .error "unsupported filter expression"

/-- `RET` of a constant. -/
def ret (k : UInt32) : BpfInsn := ⟨bpfRet ||| bpfK, 0, 0, k⟩

def accept : BpfInsn := ret 0xFFFFFFFF
def reject : BpfInsn := ret 0

/-- A load from a fixed place. -/
def loadAbs (size : UInt16) (off : UInt32) : BpfInsn := ⟨bpfLd ||| size ||| bpfAbs, 0, 0, off⟩

/-- A comparison with a constant. -/
def jumpEq (jt jf : UInt8) (k : UInt32) : BpfInsn := ⟨bpfJmp ||| bpfJeq ||| bpfK, jt, jf, k⟩

/-- The program for an expression. -/
def Filter.program : Filter → List BpfInsn
  | .tcp => [loadAbs bpfB 23, jumpEq 0 1 6, accept, reject]
  | .udp => [loadAbs bpfB 23, jumpEq 0 1 17, accept, reject]
  | .icmp => [loadAbs bpfB 23, jumpEq 0 1 1, accept, reject]
  | .port p =>
    [loadAbs bpfH 34, jumpEq 2 0 p, loadAbs bpfH 36, jumpEq 0 1 p, accept, reject]
  | .host ip =>
    [loadAbs bpfW 26, jumpEq 2 0 ip, loadAbs bpfW 30, jumpEq 0 1 ip, accept, reject]
  | .tcpPort p =>
    [loadAbs bpfB 23, jumpEq 0 5 6, loadAbs bpfH 34, jumpEq 2 0 p, loadAbs bpfH 36, jumpEq 0 1 p,
      accept, reject]

/-- `compile_filter`. -/
def compileFilter (expr : String) : Except String (List BpfInsn) := do
  return (← parseFilter expr).program

/-! ### What an expression asks for -/

/-- The field lies inside the packet and has the value. -/
def FieldIs (pkt : Bytes) (off n : Nat) (v : UInt32) : Prop :=
  off + n ≤ pkt.length ∧ fromBe (window pkt off n) = v.toNat

/-- Where the header behind the IP header begins: the IP header, behind 14 bytes of Ethernet, says
in its first byte how many words it has. -/
def transportOff (pkt : Bytes) : Nat := 14 + 4 * (byteAt pkt 14 &&& 0x0F).toNat

/-- One of the two ports that stand at the place is the port. -/
def PortAt (pkt : Bytes) (off : Nat) (p : UInt32) : Prop :=
  FieldIs pkt off 2 p ∨ FieldIs pkt (off + 2) 2 p

/-- The packet has the header fields with the values that the expression asks for. -/
def Filter.Asks (pkt : Bytes) : Filter → Prop
  | .tcp => FieldIs pkt 23 1 6
  | .udp => FieldIs pkt 23 1 17
  | .icmp => FieldIs pkt 23 1 1
  | .port p => PortAt pkt (transportOff pkt) p
  | .host ip => FieldIs pkt 26 4 ip ∨ FieldIs pkt 30 4 ip
  | .tcpPort p => FieldIs pkt 23 1 6 ∧ PortAt pkt (transportOff pkt) p

/-- Behind an IP header without options: zero is asked for, the second port is cut off, and the
first is not a zero in the packet. Behind any other: the ports and what stands in the place of the
ports of a header without options, or is cut off there and asked to be zero, do not agree. -/
def PortsMissed (pkt : Bytes) (p : UInt32) : Prop :=
  if transportOff pkt = 34 then p = 0 ∧ pkt.length < 38 ∧ ¬ FieldIs pkt 34 2 0
  else ¬ ((PortAt pkt 34 p ∨ p = 0 ∧ pkt.length < 38) ↔ PortAt pkt (transportOff pkt) p)

/-- The packet is judged by something else than the fields that the expression asks for. -/
def Filter.Missed (pkt : Bytes) : Filter → Prop
  | .port p => PortsMissed pkt p
  | .host ip => ip = 0 ∧ pkt.length < 34 ∧ ¬ FieldIs pkt 26 4 0
  | .tcpPort p => FieldIs pkt 23 1 6 ∧ PortsMissed pkt p
  | _ => False

/-! ### Running the programs -/

/-- The number that a load of `n` bytes puts into the accumulator. -/
def loaded (pkt : Bytes) (off n : Nat) : Nat :=
  if off + n ≤ pkt.length then fromBe (window pkt off n) else 0

theorem loaded_eq_iff {pkt : Bytes} {off n : Nat} {v : UInt32} :
    loaded pkt off n = v.toNat ↔ FieldIs pkt off n v ∨ pkt.length < off + n ∧ v = 0 := by
  rw [loaded, FieldIs, ← UInt32.toNat_inj, UInt32.toNat_zero]
  split_ifs with h
  · simp [h]
  · constructor
    · exact fun h' => .inr ⟨by omega, h'.symm⟩
    · rintro (h' | h')
      · exact absurd h'.1 h
      · exact h'.2.symm

/-- The width of a load. -/
def Width (size : UInt16) (n : Nat) : Prop :=
  size = bpfB ∧ n = 1 ∨ size = bpfH ∧ n = 2 ∨ size = bpfW ∧ n = 4

theorem width_byte : Width bpfB 1 := .inl ⟨rfl, rfl⟩

theorem width_half : Width bpfH 2 := .inr (.inl ⟨rfl, rfl⟩)

theorem width_word : Width bpfW 4 := .inr (.inr ⟨rfl, rfl⟩)

theorem loaded_lt {size : UInt16} {n : Nat} (hwidth : Width size n) (pkt : Bytes) (off : Nat) :
    loaded pkt off n < 2 ^ 32 := by
  unfold loaded
  split_ifs with h
  · have hlt := fromBe_lt (window pkt off n)
    rw [length_window h] at hlt
    refine hlt.trans_le ?_
    rcases hwidth with ⟨-, rfl⟩ | ⟨-, rfl⟩ | ⟨-, rfl⟩
    all_goals decide
  · decide

theorem loadPacket_eq {size : UInt16} {n : Nat} (hwidth : Width size n) (pkt : Bytes) {off : Nat}
    (hoff : off < 2 ^ 32) : loadPacket pkt off size = .ok (UInt32.ofNat (loaded pkt off n)) := by
  rcases hwidth with ⟨rfl, rfl⟩ | ⟨rfl, rfl⟩ | ⟨rfl, rfl⟩
  · rw [loadPacket, if_neg (by decide), if_neg (by decide), if_pos rfl, loaded]
    by_cases hend : off + 1 ≤ pkt.length
    · have hlt : off < pkt.length := hend
      rw [if_neg (by omega), if_pos hend, index_eq_ok hlt, window, List.drop_eq_getElem_cons hlt]
      rfl
    · rw [if_pos (by omega), if_neg hend]
      rfl
  · rw [loadPacket, if_neg (by decide), if_pos rfl, readBe_eq_ok (by omega)]
    rfl
  · rw [loadPacket, if_pos rfl, readBe_eq_ok (by omega)]
    rfl

theorem loadAbs_fields {size : UInt16} {n : Nat} (hwidth : Width size n) (off : UInt32) :
    (loadAbs size off).cls = bpfLd ∧ (loadAbs size off).mode = bpfAbs ∧
      (loadAbs size off).size = size := by
  have hfields : (bpfLd ||| size ||| bpfAbs) &&& 0x07 = bpfLd ∧
      (bpfLd ||| size ||| bpfAbs) &&& 0xe0 = bpfAbs ∧
      (bpfLd ||| size ||| bpfAbs) &&& 0x18 = size := by
    rcases hwidth with ⟨rfl, -⟩ | ⟨rfl, -⟩ | ⟨rfl, -⟩
    all_goals decide
  exact hfields

theorem jumpEq_fields (jt jf : UInt8) (v : UInt32) :
    (jumpEq jt jf v).cls = bpfJmp ∧ (jumpEq jt jf v).op = bpfJeq ∧ (jumpEq jt jf v).src ≠ bpfX := by
  have hfields : (bpfJmp ||| bpfJeq ||| bpfK) &&& 0x07 = bpfJmp ∧
      (bpfJmp ||| bpfJeq ||| bpfK) &&& 0xf0 = bpfJeq ∧
      (bpfJmp ||| bpfJeq ||| bpfK) &&& 0x08 ≠ bpfX := by decide
  exact hfields

theorem ret_fields (k : UInt32) : (ret k).cls = bpfRet ∧ (ret k).size = bpfK := by
  have hfields : (bpfRet ||| bpfK) &&& 0x07 = bpfRet ∧ (bpfRet ||| bpfK) &&& 0x18 = bpfK := by
    decide
  exact hfields

namespace BpfVm

variable {vm : BpfVm} {pkt : Bytes} {m : Machine}

theorem round_load {size : UInt16} {n : Nat} {off : UInt32} (hwidth : Width size n)
    (hpc : m.pc < 4096) (hload : index vm.program m.pc = .ok (loadAbs size off)) :
    vm.round pkt m = .ok (.again
      { m with a := UInt32.ofNat (loaded pkt off.toNat n), pc := m.pc + 1 }) := by
  obtain ⟨hcls, hmode, hsize⟩ := loadAbs_fields hwidth off
  have hoff : (loadAbs size off).k = off := rfl
  obtain ⟨hlt, -⟩ := List.getElem?_eq_some_iff.mp (index_eq_ok_iff.mp hload)
  rw [round, if_pos hlt, hload, ok_bind, execInsn, execLd, hcls, hmode, hsize, hoff,
    if_neg (by decide), if_neg (by decide), if_pos rfl, if_neg (by decide), if_pos rfl,
    loadPacket_eq hwidth pkt off.toNat_lt, ok_bind, pure_eq_ok, ok_bind]
  dsimp only
  rw [u64_eq_ok (by omega)]
  rfl

theorem round_jumpEq {jt jf : UInt8} {v : UInt32} (hpc : m.pc < 4096)
    (hjump : index vm.program m.pc = .ok (jumpEq jt jf v)) :
    vm.round pkt m = .ok (.again
      { m with pc := m.pc + 1 + (if m.a = v then jt.toNat else jf.toNat) }) := by
  obtain ⟨hcls, hop, hsrc⟩ := jumpEq_fields jt jf v
  have hoperand : operand (jumpEq jt jf v) m = v := if_neg hsrc
  have hoffset : jumpOffset (jumpEq jt jf v) m = if m.a = v then jt.toNat else jf.toNat := by
    rw [jumpOffset, hop, hoperand, if_neg (by decide), jumps, if_pos rfl]
    simp only [decide_eq_true_eq]
    rfl
  have hsmall : (if m.a = v then jt.toNat else jf.toNat) < 256 := by
    split_ifs
    · exact jt.toNat_lt
    · exact jf.toNat_lt
  obtain ⟨hlt, -⟩ := List.getElem?_eq_some_iff.mp (index_eq_ok_iff.mp hjump)
  rw [round, if_pos hlt, hjump, ok_bind, hcls, if_pos rfl, hoffset, u64_eq_ok (by omega), ok_bind,
    u64_eq_ok (by omega), ok_bind, Nat.add_right_comm]
  rfl

/-- A load and the comparison behind it. -/
theorem loop_test {size : UInt16} {n : Nat} {off : UInt32} {jt jf : UInt8} {v : UInt32}
    (hwidth : Width size n) (hpc : m.pc + 1 < 4096)
    (hload : index vm.program m.pc = .ok (loadAbs size off))
    (hjump : index vm.program (m.pc + 1) = .ok (jumpEq jt jf v)) (fuel : Nat) :
    loop (vm.round pkt) (fuel + 2) m = loop (vm.round pkt) fuel
      { m with
        a := UInt32.ofNat (loaded pkt off.toNat n)
        pc := m.pc + 2 + (if loaded pkt off.toNat n = v.toNat then jt.toNat else jf.toNat) } := by
  have hvalue : UInt32.ofNat (loaded pkt off.toNat n) = v ↔ loaded pkt off.toNat n = v.toNat := by
    rw [← UInt32.toNat_inj, UInt32.toNat_ofNat', Nat.mod_eq_of_lt (loaded_lt hwidth _ _)]
  rw [loop_again (round_load hwidth (by omega) hload), loop_again (round_jumpEq hpc hjump)]
  simp only [hvalue]

/-- A program at a `RET` of a constant. -/
theorem loop_ret {k : UInt32} (hret : index vm.program m.pc = .ok (ret k)) (fuel : Nat) :
    loop (vm.round pkt) (fuel + 1) m = .ok (.ret k) := by
  obtain ⟨hlt, -⟩ := List.getElem?_eq_some_iff.mp (index_eq_ok_iff.mp hret)
  obtain ⟨hcls, hsize⟩ := ret_fields k
  apply loop_stop
  rw [round, if_pos hlt, hret, ok_bind, hcls, hsize, if_neg (by decide), if_pos rfl, if_pos rfl]
  rfl

theorem run_of_execute {verdict : Verdict} (h : vm.execute pkt = .ok verdict) :
    vm.run pkt = .ok verdict.value := by
  rw [run, h]
  rfl

/-- One test, as in the programs for a protocol. -/
theorem run_test {size : UInt16} {n : Nat} (hwidth : Width size n) (pkt : Bytes)
    (off v : UInt32) :
    run ⟨[loadAbs size off, jumpEq 0 1 v, accept, reject]⟩ pkt =
      .ok (if loaded pkt off.toNat n = v.toNat then 0xFFFFFFFF else 0) := by
  have htest := @loop_test ⟨[loadAbs size off, jumpEq 0 1 v, accept, reject]⟩ pkt start _ _ _ _ _
    _ hwidth (by decide) rfl rfl 3
  by_cases h : loaded pkt off.toNat n = v.toNat
  · rw [if_pos h] at htest ⊢
    exact run_of_execute (htest.trans (@loop_ret _ _ _ 0xFFFFFFFF rfl 2))
  · rw [if_neg h] at htest ⊢
    exact run_of_execute (htest.trans (@loop_ret _ _ _ 0 rfl 2))

/-- Two tests for the same value from position `pc` on; either of them leads to `accept`. -/
theorem loop_either {size : UInt16} {n : Nat} (hwidth : Width size n) {off off' v : UInt32}
    (hpc : m.pc + 5 < 4096) (fuel : Nat) (hprogram : vm.program.drop m.pc =
      [loadAbs size off, jumpEq 2 0 v, loadAbs size off', jumpEq 0 1 v, accept, reject]) :
    loop (vm.round pkt) (fuel + 5) m =
      .ok (.ret (if loaded pkt off.toNat n = v.toNat ∨ loaded pkt off'.toNat n = v.toNat
        then 0xFFFFFFFF else 0)) := by
  have hindex : ∀ k insn, [loadAbs size off, jumpEq 2 0 v, loadAbs size off', jumpEq 0 1 v, accept,
      reject][k]? = some insn → index vm.program (m.pc + k) = .ok insn := by
    intro k insn hk
    rw [← hprogram, List.getElem?_drop] at hk
    exact index_eq_ok_iff.mpr hk
  rw [loop_test hwidth (by omega) (hindex 0 _ rfl) (hindex 1 _ rfl) (fuel + 3)]
  by_cases h : loaded pkt off.toNat n = v.toNat
  · rw [if_pos h, if_pos (.inl h)]
    exact loop_ret (hindex 4 _ rfl) _
  · rw [if_neg h]
    rw [loop_test hwidth (by exact Nat.lt_of_le_of_lt (by simp) hpc) (hindex 2 _ rfl)
      (hindex 3 _ rfl) (fuel + 1)]
    by_cases h' : loaded pkt off'.toNat n = v.toNat
    · rw [if_pos h', if_pos (.inr h')]
      exact loop_ret (hindex 4 _ rfl) _
    · rw [if_neg h', if_neg (not_or.mpr ⟨h, h'⟩)]
      exact loop_ret (hindex 5 _ rfl) _

/-- The programs for a port and for a host. -/
theorem run_either {size : UInt16} {n : Nat} (hwidth : Width size n) (pkt : Bytes)
    (off off' v : UInt32) :
    run ⟨[loadAbs size off, jumpEq 2 0 v, loadAbs size off', jumpEq 0 1 v, accept, reject]⟩ pkt =
      .ok (if loaded pkt off.toNat n = v.toNat ∨ loaded pkt off'.toNat n = v.toNat
        then 0xFFFFFFFF else 0) :=
  run_of_execute (@loop_either _ pkt start _ _ hwidth off off' v (by decide) 2 rfl)

/-- The program for a port of TCP. -/
theorem run_tcpPort (pkt : Bytes) (p : UInt32) :
    run ⟨(Filter.tcpPort p).program⟩ pkt =
      .ok (if loaded pkt (23 : UInt32).toNat 1 = (6 : UInt32).toNat ∧
          (loaded pkt (34 : UInt32).toNat 2 = p.toNat ∨ loaded pkt (36 : UInt32).toNat 2 = p.toNat)
        then 0xFFFFFFFF else 0) := by
  have htest := @loop_test ⟨(Filter.tcpPort p).program⟩ pkt start _ _ _ _ _ _ width_byte (by decide)
    rfl rfl 7
  by_cases h : loaded pkt (23 : UInt32).toNat 1 = (6 : UInt32).toNat
  · rw [if_pos h] at htest
    simp only [h, true_and]
    have hpc : 0 + 2 + (0 : UInt8).toNat + 5 < 4096 := by decide
    exact run_of_execute (htest.trans (loop_either width_half hpc 2 rfl))
  · rw [if_neg h] at htest
    rw [if_neg fun h' => h h'.1]
    exact run_of_execute (htest.trans (@loop_ret _ _ _ 0 rfl 6))

end BpfVm

/-! ### The compiler -/

theorem checkInsn_loadAbs {size : UInt16} {n : Nat} (hwidth : Width size n) (len i : Nat)
    (off : UInt32) : checkInsn len i (loadAbs size off) = .ok () := by
  rw [checkInsn, (loadAbs_fields hwidth off).1]
  rfl

theorem checkInsn_jumpEq {len i : Nat} {jt jf : UInt8} {v : UInt32}
    (h : i + 1 + jt.toNat < len ∧ i + 1 + jf.toNat < len) :
    checkInsn len i (jumpEq jt jf v) = .ok () := by
  obtain ⟨hcls, hop, -⟩ := jumpEq_fields jt jf v
  have hinside : ¬ (i + 1 + (jumpEq jt jf v).jt.toNat ≥ len ∨
      i + 1 + (jumpEq jt jf v).jf.toNat ≥ len) := by
    rw [not_or, not_le, not_le]
    exact h
  rw [checkInsn, hcls, hop, if_pos rfl, if_neg (by decide), if_neg hinside]
  rfl

theorem checkInsn_ret (len i : Nat) (k : UInt32) : checkInsn len i (ret k) = .ok () := by
  rw [checkInsn, (ret_fields k).1]
  rfl

theorem Filter.new_program (filter : Filter) : BpfVm.new filter.program = .ok ⟨filter.program⟩ := by
  have hret : (ret 0).cls = bpfRet := (ret_fields 0).1
  cases filter with
  | tcp => rfl
  | udp => rfl
  | icmp => rfl
  | port p =>
    simp [BpfVm.new, Filter.program, checkEnumerated, checkInsn_loadAbs width_half,
      checkInsn_jumpEq, checkInsn_ret, accept, reject, maxInsns, hret]
  | host ip =>
    simp [BpfVm.new, Filter.program, checkEnumerated, checkInsn_loadAbs width_word,
      checkInsn_jumpEq, checkInsn_ret, accept, reject, maxInsns, hret]
  | tcpPort p =>
    simp [BpfVm.new, Filter.program, checkEnumerated, checkInsn_loadAbs width_half,
      checkInsn_loadAbs width_byte, checkInsn_jumpEq, checkInsn_ret, accept, reject, maxInsns, hret]

theorem verdict_ne_zero_iff {p : Prop} [Decidable p] :
    (if p then 0xFFFFFFFF else 0 : UInt32) ≠ 0 ↔ p := by
  split_ifs with h
  · exact iff_of_true (by decide) h
  · exact iff_of_false (fun h => h rfl) h

/-- A test for a value other than 0 finds a field that is there. -/
theorem loaded_eq_iff_fieldIs {pkt : Bytes} {off n : Nat} {v : UInt32} (hv : v ≠ 0) :
    loaded pkt off n = v.toNat ↔ FieldIs pkt off n v := by
  rw [loaded_eq_iff, or_iff_left fun h => hv h.2]

/-- Two tests go wrong exactly if zero is asked for and the second field is cut off. -/
theorem either_iff {pkt : Bytes} {off off' n : Nat} {v : UInt32} (hoff : off ≤ off') :
    ((loaded pkt off n = v.toNat ∨ loaded pkt off' n = v.toNat) ↔
        FieldIs pkt off n v ∨ FieldIs pkt off' n v) ↔
      ¬ (v = 0 ∧ pkt.length < off' + n ∧ ¬ FieldIs pkt off n 0) := by
  by_cases hv : v = 0
  · subst hv
    simp only [loaded_eq_iff, true_and, and_true]
    by_cases hcut : pkt.length < off' + n
    · have hmissing : ¬ FieldIs pkt off' n 0 := fun h => absurd h.1 (by omega)
      simp [hcut, hmissing]
    · have hcut' : ¬ pkt.length < off + n := by omega
      simp [hcut, hcut']
  · rw [loaded_eq_iff_fieldIs hv, loaded_eq_iff_fieldIs hv]
    simp [hv]

/-- What the two tests for a port find. -/
theorem loadedPort_iff {pkt : Bytes} {p : UInt32} :
    (loaded pkt 34 2 = p.toNat ∨ loaded pkt 36 2 = p.toNat) ↔
      PortAt pkt 34 p ∨ p = 0 ∧ pkt.length < 38 := by
  rw [loaded_eq_iff, loaded_eq_iff, PortAt]
  constructor
  · rintro ((h | ⟨hcut, rfl⟩) | (h | ⟨hcut, rfl⟩))
    · exact .inl (.inl h)
    · exact .inr ⟨rfl, by omega⟩
    · exact .inl (.inr h)
    · exact .inr ⟨rfl, hcut⟩
  · rintro ((h | h) | ⟨rfl, hcut⟩)
    · exact .inl (.inl h)
    · exact .inr (.inl h)
    · exact .inr (.inr ⟨hcut, rfl⟩)

theorem ports_iff (pkt : Bytes) (p : UInt32) :
    ((loaded pkt 34 2 = p.toNat ∨ loaded pkt 36 2 = p.toNat) ↔ PortAt pkt (transportOff pkt) p) ↔
      ¬ PortsMissed pkt p := by
  unfold PortsMissed
  split_ifs with hplain
  · rw [hplain]
    exact either_iff (by decide)
  · rw [loadedPort_iff, not_not]

theorem Filter.run_program (filter : Filter) (pkt : Bytes) :
    ∃ value, BpfVm.run ⟨filter.program⟩ pkt = .ok value ∧
      ((value ≠ 0 ↔ filter.Asks pkt) ↔ ¬ filter.Missed pkt) := by
  -- The protocols are not 0, so that a test for one is exact.
  have hproto : ∀ v : UInt32, v ≠ 0 →
      (((if loaded pkt (23 : UInt32).toNat 1 = v.toNat then 0xFFFFFFFF else 0 : UInt32) ≠ 0 ↔
        FieldIs pkt 23 1 v) ↔ ¬ False) := fun v hv =>
    iff_of_true (verdict_ne_zero_iff.trans (loaded_eq_iff_fieldIs hv)) id
  cases filter with
  | tcp => exact ⟨_, BpfVm.run_test width_byte pkt 23 6, hproto 6 (by decide)⟩
  | udp => exact ⟨_, BpfVm.run_test width_byte pkt 23 17, hproto 17 (by decide)⟩
  | icmp => exact ⟨_, BpfVm.run_test width_byte pkt 23 1, hproto 1 (by decide)⟩
  | port p =>
    refine ⟨_, BpfVm.run_either width_half pkt 34 36 p, ?_⟩
    rw [verdict_ne_zero_iff]
    exact ports_iff pkt p
  | host ip =>
    refine ⟨_, BpfVm.run_either width_word pkt 26 30 ip, ?_⟩
    rw [verdict_ne_zero_iff]
    exact either_iff (by decide)
  | tcpPort p =>
    refine ⟨_, BpfVm.run_tcpPort pkt p, ?_⟩
    rw [verdict_ne_zero_iff, loaded_eq_iff_fieldIs (by decide)]
    by_cases htcp : FieldIs pkt 23 1 6
    · simp only [Filter.Asks, Filter.Missed, htcp, true_and]
      exact (iff_congr (and_iff_right htcp) Iff.rfl).trans (ports_iff pkt p)
    · refine iff_of_true (iff_of_false (fun h => htcp h.1) fun h => htcp h.1) fun h => htcp h.1

/-- Every program that is compiled is accepted, and its verdict on a packet is what the expression
asks for, unless a zero is asked for in a field that is cut off, or the ports are not where they are
looked for. -/
theorem compileFilter_exact_iff {expr : String} {program : List BpfInsn}
    (h : compileFilter expr = .ok program) (pkt : Bytes) :
    ∃ filter vm value, parseFilter expr = .ok filter ∧ BpfVm.new program = .ok vm ∧
      vm.run pkt = .ok value ∧ ((value ≠ 0 ↔ filter.Asks pkt) ↔ ¬ filter.Missed pkt) := by
  obtain ⟨filter, hfilter, hprogram⟩ := bind_eq_ok_iff.mp h
  cases hprogram
  obtain ⟨value, hrun, hexact⟩ := filter.run_program pkt
  exact ⟨filter, ⟨filter.program⟩, value, hfilter, filter.new_program, hrun, hexact⟩

/-- A TCP segment from port 4660 to port 80, behind an IP header with these options. -/
def webPacket (options : Bytes) : Bytes :=
  List.replicate 12 0 ++ [8, 0] ++
    [.ofNat (0x45 + options.length / 4), 0, 0, .ofNat (40 + options.length), 0, 1, 0, 0, 64, 6, 0,
      0, 10, 0, 0, 1, 10, 0, 0, 2] ++
    options ++ [0x12, 0x34, 0, 80] ++ List.replicate 16 0

theorem compileFilter_exact_iff_web :
    compileFilter "tcp port 80" = .ok (Filter.tcpPort 80).program ∧
      (Filter.tcpPort 80).Asks (webPacket []) ∧
      ∃ filter vm value, parseFilter "tcp port 80" = .ok filter ∧
        BpfVm.new (Filter.tcpPort 80).program = .ok vm ∧ vm.run (webPacket []) = .ok value ∧
        ((value ≠ 0 ↔ filter.Asks (webPacket [])) ↔ ¬ filter.Missed (webPacket [])) := by
  refine ⟨by decide +kernel, ?_, compileFilter_exact_iff (by decide +kernel) (webPacket [])⟩
  unfold Filter.Asks PortAt FieldIs
  decide

/-- `port 0` accepts the packet without any bytes, and `tcp port 80` rejects a segment to port 80
behind an IP header with options. -/
theorem compileFilter_misjudges :
    compileFilter "port 0" = .ok (Filter.port 0).program ∧
      BpfVm.run ⟨(Filter.port 0).program⟩ [] = .ok 0xFFFFFFFF ∧ ¬ (Filter.port 0).Asks [] ∧
      compileFilter "tcp port 80" = .ok (Filter.tcpPort 80).program ∧
      BpfVm.run ⟨(Filter.tcpPort 80).program⟩ (webPacket [1, 1, 1, 1]) = .ok 0 ∧
      (Filter.tcpPort 80).Asks (webPacket [1, 1, 1, 1]) := by
  unfold Filter.Asks PortAt FieldIs
  decide +kernel

end MerlionKernel.Bpf
