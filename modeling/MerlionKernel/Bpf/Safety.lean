import Mathlib.Data.Nat.Bitwise
import MerlionKernel.Bpf.Vm
import MerlionKernel.Theory.Machine

/-!
# What the check of a packet filter guarantees

A program that `BpfVm.new` accepts never leaves itself: a jump lands inside, and the last
instruction is a `RET`. The scratch memory and the packet are read only after a comparison with
their length, and a division by zero is caught. Every run therefore ends, at a `RET`, at an
instruction that the machine does not support, at a division by an index register that is zero, or
at an indexed load whose address does not fit in 32 bits.
-/

namespace MerlionKernel.Bpf

open Rust Theory

/-! ### Where the machine gives up -/

/-- The machine executes instructions of this kind. -/
def Supported (insn : BpfInsn) : Prop :=
  insn.cls ∈ [bpfSt, bpfStx, bpfJmp, bpfRet] ∨
  insn.cls = bpfLd ∧ insn.mode ∈ [bpfImm, bpfAbs, bpfInd, bpfMem, bpfLen] ∨
  insn.cls = bpfLdx ∧ insn.mode ∈ [bpfImm, bpfMem, bpfLen] ∨
  insn.cls = bpfAlu ∧ insn.op ∈ [bpfAdd, bpfSub, bpfMul, bpfDiv, bpfMod, bpfAnd, bpfOr, bpfXor,
    bpfLsh, bpfRsh, bpfNeg] ∨
  insn.cls = bpfMisc ∧ insn.op ∈ [bpfTax, bpfTxa]

/-- The instruction divides by an operand that is zero. -/
def DividesByZero (insn : BpfInsn) (m : Machine) : Prop :=
  insn.cls = bpfAlu ∧ (insn.op = bpfDiv ∨ insn.op = bpfMod) ∧ operand insn m = 0

/-- The instruction is an indexed load whose address needs more than 32 bits. -/
def AddressTooLarge (insn : BpfInsn) (m : Machine) : Prop :=
  insn.cls = bpfLd ∧ insn.mode = bpfInd ∧ 2 ^ 32 ≤ m.x.toNat + insn.k.toNat

/-! ### One instruction -/

/-- The instruction goes on in a state at the same position with a whole scratch memory. -/
def Continues (m : Machine) (e : Effect) : Prop :=
  ∃ m' : Machine, e = .ok (some m') ∧ m'.pc = m.pc ∧ m'.mem.length = bpfMemwords

theorem continues_ok {m m' : Machine} (hpc : m'.pc = m.pc) (hmem : m'.mem.length = bpfMemwords) :
    Continues m (.ok (some m')) :=
  ⟨m', rfl, hpc, hmem⟩

/-- Every load from a packet is answered, also beyond its end. -/
theorem loadPacket_returns (pkt : Bytes) {off : Nat} (hoff : off < 2 ^ 32) (size : UInt16) :
    ∃ value, loadPacket pkt off size = .ok value := by
  unfold loadPacket
  by_cases hw : size = bpfW
  · rw [if_pos hw, readBe_eq_ok (by omega)]
    exact ⟨_, rfl⟩
  rw [if_neg hw]
  by_cases hh : size = bpfH
  · rw [if_pos hh, readBe_eq_ok (by omega)]
    exact ⟨_, rfl⟩
  rw [if_neg hh]
  by_cases hb : size = bpfB
  · rw [if_pos hb]
    by_cases hend : off ≥ pkt.length
    · exact ⟨0, if_pos hend⟩
    · rw [if_neg hend, index_eq_ok (by omega : off < pkt.length)]
      exact ⟨_, rfl⟩
  · exact ⟨0, if_neg hb⟩

theorem loadMem_returns {mem : List UInt32} (hmem : mem.length = bpfMemwords) (k old : UInt32) :
    ∃ value, loadMem mem k old = .ok value := by
  unfold loadMem
  split_ifs with hk
  · exact ⟨_, index_eq_ok (by omega)⟩
  · exact ⟨old, rfl⟩

section Instructions

variable (packet : Bytes) {insn : BpfInsn} {m : Machine}

theorem execLd_outcome (hmem : m.mem.length = bpfMemwords) (hcls : insn.cls = bpfLd) :
    Continues m (execLd packet insn m) ∨
      execLd packet insn m = .ok none ∧ ¬ Supported insn ∨
      execLd packet insn m = .error .overflow ∧ AddressTooLarge insn m := by
  unfold execLd
  split_ifs with himm habs hind hmemory hlen
  · exact .inl (continues_ok rfl hmem)
  · obtain ⟨value, hvalue⟩ := loadPacket_returns packet insn.k.toNat_lt insn.size
    left
    rw [hvalue, ok_bind]
    exact continues_ok rfl hmem
  · by_cases hsum : m.x.toNat + insn.k.toNat < 2 ^ 32
    · obtain ⟨value, hvalue⟩ := loadPacket_returns packet hsum insn.size
      left
      rw [u32_eq_ok hsum, ok_bind, hvalue, ok_bind]
      exact continues_ok rfl hmem
    · exact .inr (.inr ⟨by rw [u32, if_neg hsum]; rfl, hcls, hind, by omega⟩)
  · obtain ⟨value, hvalue⟩ := loadMem_returns hmem insn.k m.a
    left
    rw [hvalue, ok_bind]
    exact continues_ok rfl hmem
  · exact .inl (continues_ok rfl hmem)
  · refine .inr (.inl ⟨rfl, ?_⟩)
    simp [Supported, hcls, himm, habs, hind, hmemory, hlen, bpfLd, bpfLdx, bpfSt, bpfStx, bpfAlu,
      bpfJmp, bpfRet, bpfMisc]

theorem execLdx_outcome (hmem : m.mem.length = bpfMemwords) (hcls : insn.cls = bpfLdx) :
    Continues m (execLdx packet insn m) ∨
      execLdx packet insn m = .ok none ∧ ¬ Supported insn := by
  unfold execLdx
  split_ifs with himm hmemory hlen
  · exact .inl (continues_ok rfl hmem)
  · obtain ⟨value, hvalue⟩ := loadMem_returns hmem insn.k m.x
    left
    rw [hvalue, ok_bind]
    exact continues_ok rfl hmem
  · exact .inl (continues_ok rfl hmem)
  · refine .inr ⟨rfl, ?_⟩
    simp [Supported, hcls, himm, hmemory, hlen, bpfLd, bpfLdx, bpfSt, bpfStx, bpfAlu, bpfJmp,
      bpfRet, bpfMisc]

theorem execStore_continues (hmem : m.mem.length = bpfMemwords) (value : UInt32) :
    Continues m (execStore value insn m) := by
  unfold execStore
  split_ifs with hk
  · rw [store_eq_ok value (by omega), ok_bind]
    exact continues_ok rfl (by simpa using hmem)
  · exact continues_ok rfl hmem

/-- Only a zero divisor keeps a division from its value. -/
theorem divide_outcome {f : Nat → Nat → Exec Nat} (hf : ∀ a b, b ≠ 0 → ∃ c, f a b = .ok c)
    (a val : UInt32) :
    (∃ value, divide f a val = .ok (some value)) ∨ divide f a val = .ok none ∧ val = 0 := by
  unfold divide
  split_ifs with hval
  · exact .inr ⟨rfl, hval⟩
  · obtain ⟨c, hc⟩ := hf a.toNat val.toNat fun h => hval (UInt32.toNat_inj.mp h)
    exact .inl ⟨UInt32.ofNat c, by rw [hc]; rfl⟩

theorem wrappingValue_isSome {op : UInt16}
    (hop : op ∈ [bpfAdd, bpfSub, bpfMul, bpfAnd, bpfOr, bpfXor, bpfLsh, bpfRsh, bpfNeg])
    (a val : UInt32) : ∃ value, wrappingValue op a val = some value := by
  simp only [List.mem_cons, List.not_mem_nil, or_false] at hop
  rcases hop with rfl | rfl | rfl | rfl | rfl | rfl | rfl | rfl | rfl <;> exact ⟨_, rfl⟩

/-- An ALU operation has a value unless it is unknown or divides by zero. -/
theorem aluValue_outcome (op : UInt16) (a val : UInt32) :
    (∃ value, aluValue op a val = .ok (some value)) ∨
      aluValue op a val = .ok none ∧
        (op ∉ [bpfAdd, bpfSub, bpfMul, bpfDiv, bpfMod, bpfAnd, bpfOr, bpfXor, bpfLsh, bpfRsh,
          bpfNeg] ∨ (op = bpfDiv ∨ op = bpfMod) ∧ val = 0) := by
  unfold aluValue
  by_cases hdiv : op = bpfDiv
  · rw [if_pos hdiv]
    obtain hvalue | ⟨hnone, hval⟩ :=
      divide_outcome (fun a b hb => ⟨a / b, div_eq_ok hb⟩) a val
    · exact .inl hvalue
    · exact .inr ⟨hnone, .inr ⟨.inl hdiv, hval⟩⟩
  rw [if_neg hdiv]
  by_cases hmod : op = bpfMod
  · rw [if_pos hmod]
    obtain hvalue | ⟨hnone, hval⟩ :=
      divide_outcome (fun a b hb => ⟨a % b, if_neg hb⟩) a val
    · exact .inl hvalue
    · exact .inr ⟨hnone, .inr ⟨.inr hmod, hval⟩⟩
  rw [if_neg hmod]
  by_cases hop : op ∈ [bpfAdd, bpfSub, bpfMul, bpfAnd, bpfOr, bpfXor, bpfLsh, bpfRsh, bpfNeg]
  · obtain ⟨value, hvalue⟩ := wrappingValue_isSome hop a val
    exact .inl ⟨value, by rw [hvalue]; rfl⟩
  · right
    simp only [List.mem_cons, List.not_mem_nil, or_false, not_or] at hop
    simp [wrappingValue, hop, hdiv, hmod]

theorem execAlu_outcome (hmem : m.mem.length = bpfMemwords) (hcls : insn.cls = bpfAlu) :
    Continues m (execAlu insn m) ∨
      execAlu insn m = .ok none ∧ (¬ Supported insn ∨ DividesByZero insn m) := by
  unfold execAlu
  obtain ⟨value, hvalue⟩ | ⟨hnone, hwhy⟩ := aluValue_outcome insn.op m.a (operand insn m)
  · left
    rw [hvalue, ok_bind]
    exact continues_ok rfl hmem
  · refine .inr ⟨by rw [hnone]; rfl, ?_⟩
    obtain hop | ⟨hop, hval⟩ := hwhy
    · left
      simpa [Supported, hcls, bpfLd, bpfLdx, bpfSt, bpfStx, bpfAlu, bpfJmp, bpfRet, bpfMisc]
        using hop
    · exact .inr ⟨hcls, hop, hval⟩

theorem execMisc_outcome (hmem : m.mem.length = bpfMemwords) (hcls : insn.cls = bpfMisc) :
    Continues m (execMisc insn m) ∨ execMisc insn m = .ok none ∧ ¬ Supported insn := by
  unfold execMisc
  split_ifs with htax htxa
  · exact .inl (continues_ok rfl hmem)
  · exact .inl (continues_ok rfl hmem)
  · refine .inr ⟨rfl, ?_⟩
    simp [Supported, hcls, htax, htxa, bpfLd, bpfLdx, bpfSt, bpfStx, bpfAlu, bpfJmp, bpfRet,
      bpfMisc]

/-- An instruction goes on, or gives up for one of the two reasons, or loads from an address that
is too large. -/
theorem execInsn_outcome (hmem : m.mem.length = bpfMemwords) (hjmp : insn.cls ≠ bpfJmp)
    (hret : insn.cls ≠ bpfRet) :
    Continues m (execInsn packet insn m) ∨
      execInsn packet insn m = .ok none ∧ (¬ Supported insn ∨ DividesByZero insn m) ∨
      execInsn packet insn m = .error .overflow ∧ AddressTooLarge insn m := by
  unfold execInsn
  split_ifs with hld hldx hst hstx halu hmisc
  · obtain hgo | ⟨hnone, hwhy⟩ | hlarge := execLd_outcome packet hmem hld
    · exact .inl hgo
    · exact .inr (.inl ⟨hnone, .inl hwhy⟩)
    · exact .inr (.inr hlarge)
  · obtain hgo | ⟨hnone, hwhy⟩ := execLdx_outcome packet hmem hldx
    · exact .inl hgo
    · exact .inr (.inl ⟨hnone, .inl hwhy⟩)
  · exact .inl (execStore_continues hmem m.a)
  · exact .inl (execStore_continues hmem m.x)
  · obtain hgo | hstop := execAlu_outcome hmem halu
    · exact .inl hgo
    · exact .inr (.inl hstop)
  · obtain hgo | ⟨hnone, hwhy⟩ := execMisc_outcome hmem hmisc
    · exact .inl hgo
    · exact .inr (.inl ⟨hnone, .inl hwhy⟩)
  · -- the three bits of a class leave no other one
    refine .inr (.inl ⟨rfl, .inl ?_⟩)
    simp [Supported, hld, hldx, hst, hstx, halu, hmisc, hjmp, hret]

end Instructions

/-! ### The check -/

/-- What the check finds out about the instruction at position `i`. -/
structure Checked (len i : Nat) (insn : BpfInsn) : Prop where
  /-- Both ways on from a jump stay inside. -/
  jump : insn.cls = bpfJmp → ∀ m, i + 1 + jumpOffset insn m < len
  /-- A constant divisor is not zero. -/
  divisor : insn.cls = bpfAlu → insn.op = bpfDiv ∨ insn.op = bpfMod →
    insn.opcode &&& bpfX = 0 → insn.k ≠ 0

theorem checkInsn_checked {len i : Nat} {insn : BpfInsn} (h : checkInsn len i insn = .ok ()) :
    Checked len i insn := by
  constructor
  · intro hjmp m
    unfold checkInsn at h
    rw [if_pos hjmp] at h
    unfold jumpOffset
    by_cases hja : insn.op = bpfJa
    · rw [if_pos hja] at h ⊢
      by_contra hout
      rw [if_pos (by omega)] at h
      cases h
    · rw [if_neg hja] at h ⊢
      by_contra hout
      have hcond : i + 1 + insn.jt.toNat ≥ len ∨ i + 1 + insn.jf.toNat ≥ len := by
        split_ifs at hout with htaken
        · exact .inl (by omega)
        · exact .inr (by omega)
      rw [if_pos hcond] at h
      cases h
  · intro halu hop hsrc hk
    unfold checkInsn at h
    rw [if_neg (by rw [halu]; decide), if_neg (by rw [halu]; decide), if_pos halu,
      if_pos ⟨hop, hsrc, hk⟩] at h
    cases h

/-- What `BpfVm.new` finds out about a program. -/
structure Accepted (vm : BpfVm) : Prop where
  nonempty : 0 < vm.program.length
  short : vm.program.length ≤ maxInsns
  checked : ∀ {i insn}, vm.program[i]? = some insn → Checked vm.program.length i insn
  /-- The last instruction is a `RET`. -/
  last : ∀ {i insn}, vm.program[i]? = some insn → insn.cls ≠ bpfRet → i + 1 < vm.program.length

theorem accepted_of_new {program : List BpfInsn} {vm : BpfVm}
    (h : BpfVm.new program = .ok vm) : Accepted vm ∧ vm.program = program := by
  unfold BpfVm.new at h
  split_ifs at h with hempty hlong
  obtain ⟨⟨⟩, hcheck, hlast⟩ := bind_eq_ok_iff.mp h
  obtain ⟨last, hlast_eq⟩ : ∃ last, program.getLast? = some last := by
    cases hget : program.getLast? with
    | none => exact absurd (List.getLast?_eq_none_iff.mp hget) hempty
    | some last => exact ⟨last, rfl⟩
  rw [hlast_eq] at hlast
  dsimp only at hlast
  split_ifs at hlast with hret
  cases hlast
  refine ⟨⟨List.length_pos_iff.mpr hempty, not_lt.mp hlong, ?_, ?_⟩, rfl⟩
  · intro i insn hi
    have hchecked := of_checkEnumerated hcheck hi
    rw [Nat.zero_add] at hchecked
    exact checkInsn_checked hchecked
  · intro i insn hi hcls
    apply succ_lt_of_ne_last hi hlast_eq
    rintro rfl
    exact hcls (not_not.mp hret)

/-! ### A run -/

/-- The machine is at an instruction and its scratch memory is whole. -/
def Inside (vm : BpfVm) (m : Machine) : Prop :=
  m.pc < vm.program.length ∧ m.mem.length = bpfMemwords

/-- How a round that does not go on ends: at a `RET`, by giving up, or at an address that is too
large. -/
def Final (vm : BpfVm) (packet : Bytes) (m : Machine) (insn : BpfInsn) : Prop :=
  insn.cls = bpfRet ∧
      vm.round packet m = .ok (.stop (.ret (if insn.size = bpfK then insn.k else m.a))) ∨
    (¬ Supported insn ∨ DividesByZero insn m) ∧ vm.round packet m = .ok (.stop .rejected) ∨
    AddressTooLarge insn m ∧ vm.round packet m = .error .overflow

/-- A round of an accepted program goes on inside, nearer to the end, or is final. -/
theorem round_inside {vm : BpfVm} (hvm : Accepted vm) (packet : Bytes) {m : Machine}
    (hm : Inside vm m) :
    (∃ m', vm.round packet m = .ok (.again m') ∧ Inside vm m' ∧ m.pc < m'.pc) ∨
      ∃ insn, vm.program[m.pc]? = some insn ∧ Final vm packet m insn := by
  obtain ⟨hpc, hmem⟩ := hm
  have hshort : vm.program.length ≤ 4096 := hvm.short
  obtain ⟨insn, hat⟩ : ∃ insn, vm.program[m.pc]? = some insn := ⟨_, List.getElem?_eq_getElem hpc⟩
  have hindex : index vm.program m.pc = .ok insn := index_eq_ok_iff.mpr hat
  have hround := show vm.round packet m = _ from if_pos hpc
  rw [hindex, ok_bind] at hround
  by_cases hjmp : insn.cls = bpfJmp
  · have hland := (hvm.checked hat).jump hjmp m
    rw [if_pos hjmp, u64_eq_ok (by omega : m.pc + jumpOffset insn m < 2 ^ 64), ok_bind,
      u64_eq_ok (by omega : m.pc + jumpOffset insn m + 1 < 2 ^ 64), ok_bind] at hround
    exact .inl ⟨_, hround, ⟨by dsimp only; omega, hmem⟩, by dsimp only; omega⟩
  rw [if_neg hjmp] at hround
  by_cases hret : insn.cls = bpfRet
  · rw [if_pos hret] at hround
    exact .inr ⟨insn, hat, .inl ⟨hret, hround⟩⟩
  rw [if_neg hret] at hround
  have hnext : m.pc + 1 < vm.program.length := hvm.last hat hret
  obtain ⟨m', hgo, hpc', hmem'⟩ | ⟨hnone, hwhy⟩ | ⟨hfault, hlarge⟩ :=
    execInsn_outcome packet hmem hjmp hret
  · rw [hgo, ok_bind] at hround
    dsimp only at hround
    rw [u64_eq_ok (by omega : m'.pc + 1 < 2 ^ 64), ok_bind] at hround
    exact .inl ⟨_, hround, ⟨by dsimp only; omega, hmem'⟩, by dsimp only; omega⟩
  · rw [hnone, ok_bind] at hround
    exact .inr ⟨insn, hat, .inr (.inl ⟨hwhy, hround⟩)⟩
  · rw [hfault] at hround
    exact .inr ⟨insn, hat, .inr (.inr ⟨hlarge, hround⟩)⟩

theorem inside_start {vm : BpfVm} (hvm : Accepted vm) : Inside vm BpfVm.start :=
  ⟨hvm.nonempty, by simp [BpfVm.start]⟩

/-- The instruction divides by the index register, which is zero. -/
def DividesByIndex (insn : BpfInsn) (m : Machine) : Prop :=
  insn.cls = bpfAlu ∧ (insn.op = bpfDiv ∨ insn.op = bpfMod) ∧ insn.src = bpfX ∧ m.x = 0

theorem src_eq_zero_of_ne {insn : BpfInsn} (h : insn.src ≠ bpfX) : insn.opcode &&& bpfX = 0 := by
  have hbit : insn.opcode.toNat &&& 8 = (insn.opcode.toNat.testBit 3).toNat * 8 :=
    Nat.and_two_pow insn.opcode.toNat 3
  cases htest : insn.opcode.toNat.testBit 3 with
  | true => exact absurd (UInt16.toNat_inj.mp (by rw [htest] at hbit; exact hbit)) h
  | false => exact UInt16.toNat_inj.mp (by rw [htest] at hbit; exact hbit)

/-- In an accepted program only the index register can be a zero divisor. -/
theorem DividesByZero.index {vm : BpfVm} (hvm : Accepted vm) {insn : BpfInsn} {m : Machine}
    (hat : vm.program[m.pc]? = some insn) (h : DividesByZero insn m) : DividesByIndex insn m := by
  obtain ⟨hcls, hop, hval⟩ := h
  unfold operand at hval
  split_ifs at hval with hsrc
  · exact ⟨hcls, hop, hsrc, hval⟩
  · exact absurd hval ((hvm.checked hat).divisor hcls hop (src_eq_zero_of_ne hsrc))

/-- Every run of an accepted program ends, and before its end nothing fails. It ends at a `RET`
with the value of that, or with 0 at an instruction that is not supported or divides by an index
register that is zero, or it comes to an indexed load whose address needs more than 32 bits. -/
theorem run_outcome {program : List BpfInsn} {vm : BpfVm} (h : BpfVm.new program = .ok vm)
    (packet : Bytes) :
    ∃ m insn, Reaches (vm.round packet) BpfVm.start m ∧ program[m.pc]? = some insn ∧
      (insn.cls = bpfRet ∧ vm.run packet = .ok (if insn.size = bpfK then insn.k else m.a) ∨
        (¬ Supported insn ∨ DividesByIndex insn m) ∧ vm.run packet = .ok 0 ∨
        AddressTooLarge insn m) := by
  obtain ⟨hvm, rfl⟩ := accepted_of_new h
  -- a round that goes on moves the program counter towards the last instruction
  have hround : ∀ m, Inside vm m → (∃ m', vm.round packet m = .ok (.again m') ∧ Inside vm m' ∧
      vm.program.length - m'.pc < vm.program.length - m.pc) ∨
      ∃ insn, vm.program[m.pc]? = some insn ∧ Final vm packet m insn := by
    intro m hm
    refine (round_inside hvm packet hm).imp_left ?_
    rintro ⟨m', hgo, hm', hlt⟩
    have hin := hm'.1
    exact ⟨m', hgo, hm', by omega⟩
  obtain ⟨m, hreach, -, ⟨insn, hat, hfinal⟩, hstop, -⟩ := loop_final (Inside vm) _
    (fun m => vm.program.length - m.pc) hround (inside_start hvm)
    (show vm.program.length - 0 < vm.program.length + 1 by omega)
  have hrun {verdict} (hround : vm.round packet m = .ok (.stop verdict)) :
      vm.run packet = .ok verdict.value := by
    rw [BpfVm.run, BpfVm.execute, hstop verdict hround]
    rfl
  refine ⟨m, insn, hreach, hat, ?_⟩
  obtain ⟨hret, hround⟩ | ⟨hwhy, hround⟩ | ⟨hlarge, -⟩ := hfinal
  · exact .inl ⟨hret, hrun hround⟩
  · exact .inr (.inl ⟨hwhy.imp_right (·.index hvm hat), hrun hround⟩)
  · exact .inr (.inr hlarge)

/-- A filter for a protocol number, run on a packet that is too short to hold one. -/
theorem run_outcome_protocol :
    ∃ m insn,
      Reaches (BpfVm.round ⟨[⟨0x30, 0, 0, 23⟩, ⟨0x15, 0, 1, 6⟩, ⟨0x06, 0, 0, 0xFFFF⟩,
        ⟨0x06, 0, 0, 0⟩]⟩ [1, 2]) BpfVm.start m ∧
      [⟨0x30, 0, 0, 23⟩, ⟨0x15, 0, 1, 6⟩, ⟨0x06, 0, 0, 0xFFFF⟩, ⟨0x06, 0, 0, 0⟩][m.pc]? =
        some insn ∧
      (insn.cls = bpfRet ∧
          BpfVm.run ⟨[⟨0x30, 0, 0, 23⟩, ⟨0x15, 0, 1, 6⟩, ⟨0x06, 0, 0, 0xFFFF⟩,
            ⟨0x06, 0, 0, 0⟩]⟩ [1, 2] = .ok (if insn.size = bpfK then insn.k else m.a) ∨
        (¬ Supported insn ∨ DividesByIndex insn m) ∧
          BpfVm.run ⟨[⟨0x30, 0, 0, 23⟩, ⟨0x15, 0, 1, 6⟩, ⟨0x06, 0, 0, 0xFFFF⟩,
            ⟨0x06, 0, 0, 0⟩]⟩ [1, 2] = .ok 0 ∨
        AddressTooLarge insn m) :=
  run_outcome (by decide +kernel) [1, 2]

/-- The program divides by the index register, which nothing has set; it is accepted, and its run
ends with 0 at the division and not with the 1 of its only `RET`. -/
theorem execute_divide_by_index :
    BpfVm.new [⟨0x3c, 0, 0, 0⟩, ⟨0x06, 0, 0, 1⟩] = .ok ⟨[⟨0x3c, 0, 0, 0⟩, ⟨0x06, 0, 0, 1⟩]⟩ ∧
      BpfVm.execute ⟨[⟨0x3c, 0, 0, 0⟩, ⟨0x06, 0, 0, 1⟩]⟩ [] = .ok .rejected ∧
      BpfVm.run ⟨[⟨0x3c, 0, 0, 0⟩, ⟨0x06, 0, 0, 1⟩]⟩ [] = .ok 0 := by
  decide +kernel

end MerlionKernel.Bpf
