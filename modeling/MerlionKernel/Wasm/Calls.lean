import MerlionKernel.Wasm.Vm

/-!
# Calls of the WebAssembly machine

Caller and callee share the operand stack, and the machine keeps them apart only by the height it
records when a call begins: popping looks at the whole stack. A call that returns replaces its
arguments by its results as long as, inside it, every instruction finds its operands above the
height of its own frame.
-/

namespace MerlionKernel.Wasm

open Rust

variable {m : WasmModule} {vm vm' : WasmVm}

/-! ### What a round does -/

/-- The type of a function, by the function section. -/
def typeOf (m : WasmModule) (funcIdx : UInt32) : Option FuncType :=
  m.funcTypeIndices[funcIdx.toNat]?.bind fun t => m.types[t.toNat]?

/-- How many values the next instruction takes from the operand stack. -/
def operands (m : WasmModule) (frame : CallFrame) : Nat :=
  match m.bodies[frame.funcIdx.toNat]? with
  | none => 0
  | some body =>
    let results := (typeOf m frame.funcIdx).elim 0 fun t => t.results.length
    match body.code[frame.ip]? with
    | none => results
    | some opcode =>
      if opcode = opReturn ∨ opcode = opEnd then results
      else if opcode = opCall then
        match decodeU32 (body.code.drop (frame.ip + 1)) with
        | .error _ => 0
        | .ok (callee, _) => (typeOf m callee).elim 0 fun t => t.params.length
      else if opcode = opLocalSet then 1
      else if opcode = opI32Add ∨ opcode = opI32Sub ∨ opcode = opI32Mul then 2
      else 0

/-- What a round does that goes on, with `frame` on top of `below`. -/
inductive Moves (m : WasmModule) (vm : WasmVm) (frame : CallFrame) (below : List CallFrame) :
    WasmVm → Prop
  /-- The operands are replaced by values, and only locals of the frame change. -/
  | inside (ip : Nat) (vals locals : List Int32)
      (hlocals : ∀ front, front <+: vm.locals → front.length ≤ frame.localsBase →
        front <+: locals) :
      Moves m vm frame below ⟨vm.stack.take (vm.stack.length - operands m frame) ++ vals, locals,
        { frame with ip } :: below⟩
  /-- The arguments are taken, and a frame is put on top. -/
  | call (ip : Nat) (callee : CallFrame) (funcType : FuncType) (locals : List Int32)
      (htype : typeOf m callee.funcIdx = some funcType)
      (hoperands : operands m frame = funcType.params.length)
      (hheight : callee.stackBase = vm.stack.length - operands m frame)
      (hbase : callee.localsBase = vm.locals.length) (hlocals : vm.locals <+: locals) :
      Moves m vm frame below ⟨vm.stack.take (vm.stack.length - operands m frame), locals,
        callee :: { frame with ip } :: below⟩
  /-- The frame is left with its results. -/
  | leave (results : List Int32) (funcType : FuncType)
      (htype : typeOf m frame.funcIdx = some funcType)
      (hlen : results.length = funcType.results.length) :
      Moves m vm frame below ⟨vm.stack.take frame.stackBase ++ results,
        vm.locals.take frame.localsBase, below⟩

theorem orFault_eq_ok_iff {ε α : Type} {x : Exec α} {a : α} :
    (orFault x : Attempt ε α) = .ok a ↔ x = .ok a := by
  cases x with
  | error fault => simp [orFault]
  | ok b => simp

theorem typeOf_eq_some {funcIdx t : UInt32} {funcType : FuncType}
    (ht : index m.funcTypeIndices funcIdx.toNat = .ok t)
    (htype : index m.types t.toNat = .ok funcType) : typeOf m funcIdx = some funcType := by
  rw [typeOf, index_eq_ok_iff.mp ht, Option.bind_some, index_eq_ok_iff.mp htype]

theorem push_eq_ok {val : Int32} (h : vm.push val = .ok vm') :
    vm' = { vm with stack := vm.stack ++ [val] } := by
  unfold WasmVm.push at h
  split_ifs at h
  · cases h
  · cases h
    rfl

theorem pop_eq_ok {val : Int32} (h : vm.pop = .ok (val, vm')) :
    vm' = { vm with stack := vm.stack.take (vm.stack.length - 1) } := by
  unfold WasmVm.pop at h
  split at h
  · cases h
    rw [← List.dropLast_eq_take]
  · cases h

theorem pushAll_eq_ok {vals : List Int32} (h : vm.pushAll vals = .ok vm') :
    vm' = { vm with stack := vm.stack ++ vals } := by
  induction vals generalizing vm with
  | nil =>
    cases h
    simp
  | cons val vals ih =>
    obtain ⟨next, hpush, h⟩ := bind_eq_ok_iff.mp h
    rw [ih h, push_eq_ok hpush]
    simp

theorem binary_eq_ok {op : Int32 → Int32 → Int32} (h : WasmVm.binary op vm = .ok vm') :
    ∃ val, vm' = { vm with stack := vm.stack.take (vm.stack.length - 2) ++ [val] } := by
  obtain ⟨⟨b, vm₁⟩, hb, h⟩ := bind_eq_ok_iff.mp h
  obtain ⟨⟨a, vm₂⟩, ha, h⟩ := bind_eq_ok_iff.mp h
  refine ⟨op a b, ?_⟩
  rw [push_eq_ok h, pop_eq_ok ha, pop_eq_ok hb]
  dsimp only
  rw [List.take_take, List.length_take]
  congr 3
  omega

theorem immediate_eq_ok {α : Type} {decode : Bytes → Except WasmError (α × Nat)} {code : Bytes}
    {frame frame' : CallFrame} {a : α}
    (h : WasmVm.immediate decode code frame = .ok (a, frame')) :
    ∃ k, decode (code.drop frame.ip) = .ok (a, k) ∧ frame' = { frame with ip := frame.ip + k } := by
  obtain ⟨bs, hslice, h⟩ := bind_eq_ok_iff.mp h
  -- the operand is decoded from all the code that is left
  have hbs : bs = code.drop frame.ip := by
    have hdrop := drop_of_slice (orFault_eq_ok_iff.mp hslice)
    rw [List.drop_length, List.append_nil] at hdrop
    exact hdrop.symm
  rw [← hbs]
  cases hdecode : decode bs with
  | error e =>
    rw [hdecode] at h
    cases h
  | ok result =>
    rw [hdecode] at h
    cases h
    exact ⟨_, rfl, rfl⟩

/-- A call that is set up. -/
theorem callFunc_eq_ok {funcIdx : UInt32} {args : List Int32}
    (h : vm.callFunc m funcIdx args = .ok vm') :
    ∃ callee locals, vm' = ⟨vm.stack, locals, callee :: vm.callStack⟩ ∧ callee.funcIdx = funcIdx ∧
      callee.stackBase = vm.stack.length ∧ callee.localsBase = vm.locals.length ∧
      vm.locals <+: locals := by
  unfold WasmVm.callFunc at h
  split_ifs at h
  · cases h
  · cases h
  · obtain ⟨t, -, h⟩ := bind_eq_ok_iff.mp h
    obtain ⟨funcType, -, h⟩ := bind_eq_ok_iff.mp h
    obtain ⟨body, -, h⟩ := bind_eq_ok_iff.mp h
    obtain ⟨locals, hlocals, h⟩ := bind_eq_ok_iff.mp h
    cases h
    exact ⟨_, locals, rfl, rfl, rfl, rfl, isPrefix_storeArray (orFault_eq_ok_iff.mp hlocals)
      (List.prefix_append _ _) (Nat.le_refl _)⟩

/-- A function that is left for another one. -/
theorem returned_again {frame : CallFrame} {below : List CallFrame}
    (hstack : vm.callStack = frame :: below) (h : vm.returned m = .ok (.again vm')) :
    ∃ results funcType, typeOf m frame.funcIdx = some funcType ∧
      results.length = funcType.results.length ∧
      vm' = ⟨vm.stack.take frame.stackBase ++ results, vm.locals.take frame.localsBase, below⟩ := by
  obtain ⟨⟨results, next⟩, hreturn, h⟩ := bind_eq_ok_iff.mp h
  -- the machine goes on, so a caller is left
  have hnext : next = vm' := by
    dsimp only at h
    split_ifs at h
    · cases h
    · cases h
      rfl
  subst hnext
  rw [WasmVm.doReturn, hstack] at hreturn
  obtain ⟨t, ht, hreturn⟩ := bind_eq_ok_iff.mp hreturn
  obtain ⟨funcType, htype, hreturn⟩ := bind_eq_ok_iff.mp hreturn
  dsimp only at hreturn
  split_ifs at hreturn with hshort
  · cases hreturn
  · obtain ⟨results', hresults, hreturn⟩ := bind_eq_ok_iff.mp hreturn
    obtain ⟨pushed, hpushed, hreturn⟩ := bind_eq_ok_iff.mp hreturn
    cases hreturn
    refine ⟨results, funcType,
      typeOf_eq_some (orFault_eq_ok_iff.mp ht) (orFault_eq_ok_iff.mp htype), ?_, ?_⟩
    · rw [length_of_slice (orFault_eq_ok_iff.mp hresults)]
      omega
    · rw [pushAll_eq_ok hpushed]

section Instruction

variable {frame : CallFrame} {below : List CallFrame} {body : FuncBody}
  (hbody : m.bodies[frame.funcIdx.toNat]? = some body)

include hbody

/-- The operands of the instruction at hand. -/
theorem operands_eq {opcode : UInt8} (hop : body.code[frame.ip]? = some opcode) :
    operands m frame =
      if opcode = opReturn ∨ opcode = opEnd then
        (typeOf m frame.funcIdx).elim 0 fun t => t.results.length
      else if opcode = opCall then
        match decodeU32 (body.code.drop (frame.ip + 1)) with
        | .error _ => 0
        | .ok (callee, _) => (typeOf m callee).elim 0 fun t => t.params.length
      else if opcode = opLocalSet then 1
      else if opcode = opI32Add ∨ opcode = opI32Sub ∨ opcode = opI32Mul then 2
      else 0 := by
  rw [operands, hbody]
  dsimp only
  rw [hop]

omit hbody in
/-- An instruction that takes `n` values and leaves the locals alone. -/
theorem moves_inside {n : Nat} (hoperands : operands m frame = n) (ip : Nat) (vals : List Int32) :
    Moves m vm frame below
      ⟨vm.stack.take (vm.stack.length - n) ++ vals, vm.locals, { frame with ip } :: below⟩ :=
  hoperands ▸ .inside ip vals vm.locals fun _ hfront _ => hfront

omit hbody in
/-- An instruction that takes nothing. -/
theorem moves_push (hoperands : operands m frame = 0) (ip : Nat) (vals : List Int32) :
    Moves m vm frame below ⟨vm.stack ++ vals, vm.locals, { frame with ip } :: below⟩ := by
  have hmoves := @moves_inside m vm frame below 0 hoperands ip vals
  rwa [Nat.sub_zero, List.take_length] at hmoves

theorem execCall_again (hop : body.code[frame.ip]? = some opCall)
    (h : vm.execCall m body.code { frame with ip := frame.ip + 1 } below = .ok vm') :
    Moves m vm frame below vm' := by
  obtain ⟨⟨callee, frame'⟩, himmediate, h⟩ := bind_eq_ok_iff.mp h
  obtain ⟨k, hdecode, rfl⟩ := immediate_eq_ok himmediate
  dsimp only at h hdecode
  split_ifs at h
  · cases h
  obtain ⟨t, ht, h⟩ := bind_eq_ok_iff.mp h
  obtain ⟨funcType, htype, h⟩ := bind_eq_ok_iff.mp h
  have hcallee : typeOf m callee = some funcType :=
    typeOf_eq_some (orFault_eq_ok_iff.mp ht) (orFault_eq_ok_iff.mp htype)
  have hoperands : operands m frame = funcType.params.length := by
    rw [operands_eq hbody hop, if_neg (by decide), if_pos rfl, hdecode]
    dsimp only
    rw [hcallee]
    rfl
  split_ifs at h with hshort
  · cases h
  obtain ⟨args, -, h⟩ := bind_eq_ok_iff.mp h
  obtain ⟨frame', locals, rfl, rfl, hheight, hbase, hlocals⟩ := callFunc_eq_ok h
  dsimp only at hheight hbase hlocals ⊢
  rw [← hoperands] at hheight ⊢
  refine .call (frame.ip + 1 + k) frame' funcType locals hcallee hoperands ?_ hbase hlocals
  rw [hheight, List.length_take]
  exact Nat.min_eq_left (Nat.sub_le _ _)

theorem execLocalSet_again (hop : body.code[frame.ip]? = some opLocalSet)
    (h : vm.execLocalSet body.code { frame with ip := frame.ip + 1 } below = .ok vm') :
    Moves m vm frame below vm' := by
  obtain ⟨⟨li, frame'⟩, himmediate, h⟩ := bind_eq_ok_iff.mp h
  obtain ⟨k, -, rfl⟩ := immediate_eq_ok himmediate
  dsimp only at h
  split_ifs at h
  · cases h
  obtain ⟨⟨val, popped⟩, hpop, h⟩ := bind_eq_ok_iff.mp h
  obtain ⟨locals, hstore, h⟩ := bind_eq_ok_iff.mp h
  cases h
  rw [pop_eq_ok hpop] at hstore ⊢
  have hone : operands m frame = 1 := by
    rw [operands_eq hbody hop]
    rfl
  have hlocals : ∀ front, front <+: vm.locals → front.length ≤ frame.localsBase →
      front <+: locals := fun front hfront hle =>
    isPrefix_store (orFault_eq_ok_iff.mp hstore) hfront (Nat.le_trans hle (Nat.le_add_right _ _))
  have hmoves := @Moves.inside m vm frame below (frame.ip + 1 + k) [] locals hlocals
  rwa [hone, List.append_nil] at hmoves

omit hbody in
theorem execLocalGet_again (hoperands : operands m frame = 0) {code : Bytes}
    (h : vm.execLocalGet code { frame with ip := frame.ip + 1 } below = .ok vm') :
    Moves m vm frame below vm' := by
  obtain ⟨⟨li, frame'⟩, himmediate, h⟩ := bind_eq_ok_iff.mp h
  obtain ⟨k, -, rfl⟩ := immediate_eq_ok himmediate
  dsimp only at h
  split_ifs at h
  · cases h
  obtain ⟨val, -, h⟩ := bind_eq_ok_iff.mp h
  rw [push_eq_ok h]
  exact moves_push hoperands _ [val]

omit hbody in
theorem execConst_again (hoperands : operands m frame = 0) {code : Bytes}
    (h : vm.execConst code { frame with ip := frame.ip + 1 } below = .ok vm') :
    Moves m vm frame below vm' := by
  obtain ⟨⟨val, frame'⟩, himmediate, h⟩ := bind_eq_ok_iff.mp h
  obtain ⟨k, -, rfl⟩ := immediate_eq_ok himmediate
  rw [push_eq_ok h]
  exact moves_push hoperands _ [val]

theorem execInsn_again {opcode : UInt8} (hop : body.code[frame.ip]? = some opcode)
    (h : vm.execInsn m body.code { frame with ip := frame.ip + 1 } below opcode =
      .ok (.again vm')) : Moves m vm frame below vm' := by
  have hoperands := operands_eq hbody hop
  have hbinary (op : Int32 → Int32 → Int32) (htwo : operands m frame = 2)
      (hrun : (do return .again (← WasmVm.binary op
        { vm with callStack := { frame with ip := frame.ip + 1 } :: below }) :
          Attempt WasmError (ControlFlow WasmVm (List Int32))) = .ok (.again vm')) :
      Moves m vm frame below vm' := by
    obtain ⟨next, hnext, hrun⟩ := bind_eq_ok_iff.mp hrun
    cases hrun
    obtain ⟨val, rfl⟩ := binary_eq_ok hnext
    exact moves_inside htwo _ [val]
  unfold WasmVm.execInsn at h
  dsimp only at h
  by_cases hnop : opcode = opNop
  · rw [if_pos hnop] at h
    cases h
    have hmoves := @moves_push m vm frame below (by rw [hoperands, hnop]; rfl) (frame.ip + 1) []
    rwa [List.append_nil] at hmoves
  rw [if_neg hnop] at h
  by_cases hunreachable : opcode = opUnreachable
  · rw [if_pos hunreachable] at h
    cases h
  rw [if_neg hunreachable] at h
  by_cases hreturn : opcode = opReturn ∨ opcode = opEnd
  · rw [if_pos hreturn] at h
    obtain ⟨results, funcType, htype, hlen, rfl⟩ := returned_again rfl h
    exact .leave results funcType htype hlen
  rw [if_neg hreturn] at h
  by_cases hcall : opcode = opCall
  · rw [if_pos hcall] at h
    obtain ⟨next, hnext, h⟩ := bind_eq_ok_iff.mp h
    cases h
    exact execCall_again hbody (hcall ▸ hop) hnext
  rw [if_neg hcall] at h
  by_cases hget : opcode = opLocalGet
  · rw [if_pos hget] at h
    obtain ⟨next, hnext, h⟩ := bind_eq_ok_iff.mp h
    cases h
    exact execLocalGet_again (by rw [hoperands, hget]; rfl) hnext
  rw [if_neg hget] at h
  by_cases hset : opcode = opLocalSet
  · rw [if_pos hset] at h
    obtain ⟨next, hnext, h⟩ := bind_eq_ok_iff.mp h
    cases h
    exact execLocalSet_again hbody (hset ▸ hop) hnext
  rw [if_neg hset] at h
  by_cases hconst : opcode = opI32Const
  · rw [if_pos hconst] at h
    obtain ⟨next, hnext, h⟩ := bind_eq_ok_iff.mp h
    cases h
    exact execConst_again (by rw [hoperands, hconst]; rfl) hnext
  rw [if_neg hconst] at h
  by_cases hadd : opcode = opI32Add
  · rw [if_pos hadd] at h
    exact hbinary _ (by rw [hoperands, hadd]; rfl) h
  rw [if_neg hadd] at h
  by_cases hsub : opcode = opI32Sub
  · rw [if_pos hsub] at h
    exact hbinary _ (by rw [hoperands, hsub]; rfl) h
  rw [if_neg hsub] at h
  by_cases hmul : opcode = opI32Mul
  · rw [if_pos hmul] at h
    exact hbinary _ (by rw [hoperands, hmul]; rfl) h
  rw [if_neg hmul] at h
  cases h

end Instruction

/-- A round that goes on does one of three things. -/
theorem step_again (h : vm.step m = .ok (.again vm')) :
    ∃ frame below, vm.callStack = frame :: below ∧ Moves m vm frame below vm' := by
  unfold WasmVm.step at h
  cases hstack : vm.callStack with
  | nil =>
    rw [hstack] at h
    cases h
  | cons frame below =>
    refine ⟨frame, below, rfl, ?_⟩
    rw [hstack] at h
    obtain ⟨body, hbody, h⟩ := bind_eq_ok_iff.mp h
    split_ifs at h with hend
    · obtain ⟨results, funcType, htype, hlen, rfl⟩ := returned_again hstack h
      exact .leave results funcType htype hlen
    · obtain ⟨opcode, hop, h⟩ := bind_eq_ok_iff.mp h
      exact execInsn_again (index_eq_ok_iff.mp (orFault_eq_ok_iff.mp hbody))
        (index_eq_ok_iff.mp (orFault_eq_ok_iff.mp hop)) h

/-! ### What a call does -/

/-- The states between `vm` and the end of the frames above the lowest `n`, with the state after
the last of them has been left. -/
inductive Inside (m : WasmModule) (n : Nat) (vm : WasmVm) : WasmVm → Prop
  | refl : Inside m n vm vm
  | tail {s t : WasmVm} (hs : Inside m n vm s) (hdepth : n < s.callStack.length)
      (hstep : s.step m = .ok (.again t)) : Inside m n vm t

/-- The next instruction finds its operands above the height at which its function was called. -/
def OwnOperands (m : WasmModule) (vm : WasmVm) : Prop :=
  ∀ frame ∈ vm.callStack.head?, frame.stackBase + operands m frame ≤ vm.stack.length

/-- The round from `vm` to `vm'` is a call of a function of the type. -/
def Calls (m : WasmModule) (vm : WasmVm) (funcType : FuncType) (vm' : WasmVm) : Prop :=
  vm.step m = .ok (.again vm') ∧ vm'.callStack.length = vm.callStack.length + 1 ∧
    vm'.callStack.head?.bind (fun callee => typeOf m callee.funcIdx) = some funcType

/-- The top values, as many as the type has parameters, are replaced by as many as it has results;
the locals are the same, and so are the frames up to the position of the caller. -/
def Replaced (vm : WasmVm) (funcType : FuncType) (vm' : WasmVm) : Prop :=
  (∃ results, results.length = funcType.results.length ∧
      vm'.stack = vm.stack.take (vm.stack.length - funcType.params.length) ++ results) ∧
    vm'.locals = vm.locals ∧
    ∃ frame below ip, vm.callStack = frame :: below ∧ vm'.callStack = { frame with ip } :: below

/-- The frames of a call on top of its callers, and whatever it has called: they use the operand
stack above the height `height`, and the locals from `base` on. -/
inductive Above (m : WasmModule) (callers : List CallFrame) (funcType : FuncType)
    (height base : Nat) : List CallFrame → Prop
  | callee (frame : CallFrame) (htype : typeOf m frame.funcIdx = some funcType)
      (hheight : frame.stackBase = height) (hbase : frame.localsBase = base) :
      Above m callers funcType height base (frame :: callers)
  | more (frame : CallFrame) {frames : List CallFrame} (hheight : height ≤ frame.stackBase)
      (hbase : base ≤ frame.localsBase) (hframes : Above m callers funcType height base frames) :
      Above m callers funcType height base (frame :: frames)

variable {callers : List CallFrame} {funcType : FuncType} {height base : Nat}

theorem Above.length_lt {frames : List CallFrame}
    (h : Above m callers funcType height base frames) : callers.length < frames.length := by
  induction h with
  | callee => exact Nat.lt_succ_self _
  | more _ _ _ _ ih => exact Nat.lt_succ_of_lt ih

theorem Above.head {frame : CallFrame} {below : List CallFrame}
    (h : Above m callers funcType height base (frame :: below)) :
    height ≤ frame.stackBase ∧ base ≤ frame.localsBase := by
  cases h with
  | callee _ _ hheight hbase => exact ⟨hheight.ge, hbase.ge⟩
  | more _ hheight hbase _ => exact ⟨hheight, hbase⟩

theorem Above.advance {frame : CallFrame} {below : List CallFrame}
    (h : Above m callers funcType height base (frame :: below)) (ip : Nat) :
    Above m callers funcType height base ({ frame with ip } :: below) := by
  cases h with
  | callee _ htype hheight hbase => exact .callee _ htype hheight hbase
  | more _ hheight hbase hframes => exact .more _ hheight hbase hframes

/-- What holds inside a call that found the operands `stack` below its own, and `locals`. -/
structure Kept (m : WasmModule) (callers : List CallFrame) (funcType : FuncType)
    (stack locals : List Int32) (vm : WasmVm) : Prop where
  frames : Above m callers funcType stack.length locals.length vm.callStack
  stack : stack <+: vm.stack
  locals : locals <+: vm.locals

/-- The call has returned. -/
def Done (callers : List CallFrame) (funcType : FuncType) (stack locals : List Int32)
    (vm : WasmVm) : Prop :=
  vm.callStack = callers ∧ vm.locals = locals ∧
    ∃ results, results.length = funcType.results.length ∧ vm.stack = stack ++ results

/-- A round inside a call stays inside, or ends the call. -/
theorem Kept.step {stack locals : List Int32} (h : Kept m callers funcType stack locals vm)
    (hown : OwnOperands m vm) (hstep : vm.step m = .ok (.again vm')) :
    Kept m callers funcType stack locals vm' ∨ Done callers funcType stack locals vm' := by
  obtain ⟨frame, below, hstack, hmoves⟩ := step_again hstep
  obtain ⟨hframes, hvals, hlocals⟩ := h
  rw [hstack] at hframes
  obtain ⟨hheight, hbase⟩ := hframes.head
  -- what the instruction takes lies above the frame's own height, and so above `stack`
  have hroom := hown frame (by rw [hstack]; rfl)
  have htake : stack <+: vm.stack.take (vm.stack.length - operands m frame) :=
    List.prefix_take_iff.mpr ⟨hvals, by omega⟩
  cases hmoves with
  | inside ip vals locals' hlocals' =>
    exact .inl ⟨hframes.advance ip, htake.trans (List.prefix_append _ _),
      hlocals' locals hlocals hbase⟩
  | call ip callee calleeType locals' htype hoperands hcallee hcalleeBase hlocals' =>
    refine .inl ⟨.more callee ?_ ?_ (hframes.advance ip), htake, hlocals.trans hlocals'⟩
    · omega
    · exact hcalleeBase ▸ hlocals.length_le
  | leave results frameType htype hlen =>
    -- the frame that is left is the one of the call, or one that it has called
    cases hframes with
    | callee _ hcallee hheight' hbase' =>
      obtain rfl : frameType = funcType := Option.some.inj (htype.symm.trans hcallee)
      refine .inr ⟨rfl, ?_, results, hlen, ?_⟩
      · rw [hbase']
        exact (List.prefix_iff_eq_take.mp hlocals).symm
      · rw [hheight', ← List.prefix_iff_eq_take.mp hvals]
    | more _ hheight' hbase' hrest =>
      exact .inl ⟨hrest, (List.prefix_take_iff.mpr ⟨hvals, hheight'⟩).trans
        (List.prefix_append _ _), List.prefix_take_iff.mpr ⟨hlocals, hbase'⟩⟩

/-- The states inside a call keep what is below them, until the call is done. -/
theorem Kept.run {stack locals : List Int32} {s : WasmVm}
    (h : Kept m callers funcType stack locals vm) (hrun : Inside m callers.length vm s)
    (hown : ∀ t, Inside m callers.length vm t → callers.length < t.callStack.length →
      OwnOperands m t) :
    Kept m callers funcType stack locals s ∨ Done callers funcType stack locals s := by
  induction hrun with
  | refl => exact .inl h
  | tail hs hdeep hnext ih =>
    rcases ih with hkept | hdone
    · exact hkept.step (hown _ hs hdeep) hnext
    · rw [hdone.1] at hdeep
      exact absurd hdeep (Nat.lt_irrefl _)

/-- A call whose instructions use their own operands replaces its arguments by its results. -/
theorem call_replaces {vm₁ vm₂ : WasmVm} (hcall : Calls m vm funcType vm₁)
    (hrun : Inside m vm.callStack.length vm₁ vm₂)
    (hreturned : vm₂.callStack.length = vm.callStack.length)
    (hown : ∀ s, Inside m vm.callStack.length vm₁ s → vm.callStack.length < s.callStack.length →
      OwnOperands m s) : Replaced vm funcType vm₂ := by
  obtain ⟨hstep, hdepth, htype⟩ := hcall
  obtain ⟨frame, below, hstack, hmoves⟩ := step_again hstep
  rw [hstack] at hdepth hrun hreturned hown
  cases hmoves with
  -- only a call makes the call stack longer
  | inside => exact absurd hdepth (by simp)
  | leave =>
    rw [List.length_cons] at hdepth
    exact absurd hdepth (by dsimp only; omega)
  | call ip callee calleeType locals hcallee hoperands hheight hbase hlocals =>
    obtain rfl : calleeType = funcType := Option.some.inj (hcallee.symm.trans htype)
    rw [hoperands] at hrun hown hheight
    have hlength : (vm.stack.take (vm.stack.length - calleeType.params.length)).length =
        vm.stack.length - calleeType.params.length := by
      rw [List.length_take]
      exact Nat.min_eq_left (Nat.sub_le _ _)
    have hstart : Kept m ({ frame with ip } :: below) calleeType
        (vm.stack.take (vm.stack.length - calleeType.params.length)) vm.locals
        ⟨vm.stack.take (vm.stack.length - calleeType.params.length), locals,
          callee :: { frame with ip } :: below⟩ :=
      ⟨.callee callee hcallee (hheight.trans hlength.symm) hbase, List.prefix_rfl, hlocals⟩
    rcases hstart.run hrun hown with hkept | ⟨hcallers, hsame, hresults⟩
    · have hlt := hkept.frames.length_lt
      rw [hreturned] at hlt
      exact absurd hlt (Nat.lt_irrefl _)
    · exact ⟨hresults, hsame, frame, below, ip, hstack, hcallers⟩

/-- A function that puts 1, 2 and 3 on the stack and calls another one, which has one result. -/
def callingModule (code : Bytes) : WasmModule where
  types := [⟨[], []⟩, ⟨[], [.i32]⟩]
  funcTypeIndices := [0, 1]
  bodies := [⟨[], [0x41, 1, 0x41, 2, 0x41, 3, 0x10, 1]⟩, ⟨[], code⟩]

/-- The machine in front of the call. -/
def beforeCall : WasmVm := ⟨[1, 2, 3], [], [⟨0, 6, 0, 0, 0, 0⟩]⟩

/-- The machine when the function has been called and has come to `ip`. -/
def insideCall (stack : List Int32) (ip : Nat) : WasmVm :=
  ⟨stack, [], [⟨1, ip, 0, 0, 3, 1⟩, ⟨0, 8, 0, 0, 0, 0⟩]⟩

/-- The states inside a call of a function that returns 5. -/
theorem inside_constant {s : WasmVm}
    (h : Inside (callingModule [0x41, 5]) 1 (insideCall [1, 2, 3] 0) s) :
    s = insideCall [1, 2, 3] 0 ∨ s = insideCall [1, 2, 3, 5] 2 ∨
      s = ⟨[1, 2, 3, 5], [], [⟨0, 8, 0, 0, 0, 0⟩]⟩ := by
  have hpush : (insideCall [1, 2, 3] 0).step (callingModule [0x41, 5]) =
      .ok (.again (insideCall [1, 2, 3, 5] 2)) := by rfl
  have hleave : (insideCall [1, 2, 3, 5] 2).step (callingModule [0x41, 5]) =
      .ok (.again ⟨[1, 2, 3, 5], [], [⟨0, 8, 0, 0, 0, 0⟩]⟩) := by rfl
  induction h with
  | refl => exact .inl rfl
  | tail _ hdeep hstep ih =>
    rcases ih with rfl | rfl | rfl
    · rw [hpush] at hstep
      cases hstep
      exact .inr (.inl rfl)
    · rw [hleave] at hstep
      cases hstep
      exact .inr (.inr rfl)
    · exact absurd hdeep (by decide)

/-- A function that returns 5. -/
theorem constant_replaces :
    Replaced beforeCall ⟨[], [.i32]⟩ ⟨[1, 2, 3, 5], [], [⟨0, 8, 0, 0, 0, 0⟩]⟩ := by
  refine @call_replaces (callingModule [0x41, 5]) _ _ (insideCall [1, 2, 3] 0) _
    ⟨by rfl, by rfl, by rfl⟩ ?_ (by rfl) ?_
  · exact .tail (.tail .refl (by decide) (t := insideCall [1, 2, 3, 5] 2) (by rfl)) (by decide)
      (by rfl)
  · intro s hs hdeep
    rcases inside_constant hs with rfl | rfl | rfl
    · unfold OwnOperands
      decide
    · unfold OwnOperands
      decide
    · exact absurd hdeep (by decide)

/-- An addition in the function that is called takes two values of the caller. -/
theorem addition_takes_callers_values :
    WasmVm.callFunc (callingModule [0x6A]) ⟨[], [], []⟩ 0 [] =
        .ok ⟨[], [], [⟨0, 0, 0, 0, 0, 0⟩]⟩ ∧
      Inside (callingModule [0x6A]) 0 ⟨[], [], [⟨0, 0, 0, 0, 0, 0⟩]⟩ beforeCall ∧
      Calls (callingModule [0x6A]) beforeCall ⟨[], [.i32]⟩ (insideCall [1, 2, 3] 0) ∧
      Inside (callingModule [0x6A]) 1 (insideCall [1, 2, 3] 0)
        ⟨[1, 5, 5], [], [⟨0, 8, 0, 0, 0, 0⟩]⟩ ∧
      ¬ Replaced beforeCall ⟨[], [.i32]⟩ ⟨[1, 5, 5], [], [⟨0, 8, 0, 0, 0, 0⟩]⟩ := by
  refine ⟨by rfl, ?_, ⟨by rfl, by rfl, by rfl⟩, ?_, ?_⟩
  · exact .tail (.tail (.tail .refl (by decide) (t := ⟨[1], [], [⟨0, 2, 0, 0, 0, 0⟩]⟩) (by rfl))
      (by decide) (t := ⟨[1, 2], [], [⟨0, 4, 0, 0, 0, 0⟩]⟩) (by rfl)) (by decide) (by rfl)
  · exact .tail (.tail .refl (by decide) (t := insideCall [1, 5] 1) (by rfl)) (by decide) (by rfl)
  · rintro ⟨⟨results, hlen, hstack⟩, -⟩
    have hlength := congrArg List.length hstack
    rw [List.length_append, hlen] at hlength
    exact absurd hlength (by decide)

end MerlionKernel.Wasm
