import MerlionKernel.Rust.Fallible
import MerlionKernel.Theory.Registry
import MerlionKernel.Theory.Run

/-!
# Named semaphores

`ipc_ext.rs` counts for each semaphore the waits that succeeded and the posts beside its
value, an `i32`. The value is always the initial one plus the posts minus the waits. It stays
between 0 and `max_value` as well, unless a semaphore is created with a negative value, which
`sem_init` accepts, or a semaphore at `i32::MAX` is posted, which overflows: `post` does not
look at `max_value`.
-/

namespace MerlionKernel.Ipc.Sem

open Rust Theory

/-- `MAX_SEMAPHORES`. -/
def maxSemaphores : Nat := 64

/-- A named semaphore. -/
structure Semaphore where
  id : Nat
  name : String
  value : I32
  maxValue : I32
  waiters : Nat
  namespaceId : Nat
  totalWaits : Nat
  totalPosts : Nat

/-- The table of all semaphores. -/
structure SemTable where
  sems : List Semaphore
  nextId : Nat

namespace SemTable

/-- The empty table. -/
def new : SemTable := { sems := [], nextId := 1 }

/-- The semaphore with a name. -/
def findByName (self : SemTable) (name : String) (namespaceId : Nat) : Option Semaphore :=
  self.sems.find? fun s => s.name = name ∧ s.namespaceId = namespaceId

/-- The number of the semaphore with a name, which is created if there is none. -/
def init (self : SemTable) (name : String) (value : I32) (namespaceId : Nat) :
    Exec (Option Nat × SemTable) :=
  match self.findByName name namespaceId with
  | some s => return (some s.id, self)
  | none =>
    if self.sems.length ≥ maxSemaphores then return (none, self)
    else do
      let id := self.nextId
      let nextId ← u64 (self.nextId + 1)
      let sem : Semaphore :=
        { id, name, value, maxValue := I32.max, waiters := 0, namespaceId, totalWaits := 0,
          totalPosts := 0 }
      return (some id, { sems := self.sems ++ [sem], nextId })

/-- The first semaphore with a number. -/
def find (self : SemTable) (id : Nat) : Option Semaphore := lookup Semaphore.id self.sems id

/-- The table after a change to the semaphore that `find` found. -/
def put (self : SemTable) (sem : Semaphore) : SemTable :=
  { self with sems := replace Semaphore.id self.sems sem }

/-- What `wait` and `trywait` do to a semaphore with a positive value. -/
def acquire (self : SemTable) (sem : Semaphore) : Exec (Bool × SemTable) := do
  let value ← I32.arith (sem.value.1 - 1)
  let totalWaits ← u64 (sem.totalWaits + 1)
  return (true, self.put { sem with value, totalWaits })

/-- Take one, or become one more waiter. -/
def wait (self : SemTable) (id : Nat) : Exec (Bool × SemTable) :=
  match self.find id with
  | none => return (false, self)
  | some sem =>
    if sem.value.1 > 0 then self.acquire sem
    else do
      let waiters ← u64 (sem.waiters + 1)
      return (false, self.put { sem with waiters })

/-- Take one if there is one. -/
def trywait (self : SemTable) (id : Nat) : Exec (Bool × SemTable) :=
  match self.find id with
  | none => return (false, self)
  | some sem => if sem.value.1 > 0 then self.acquire sem else return (false, self)

/-- Give one back. -/
def post (self : SemTable) (id : Nat) : Exec (Bool × SemTable) :=
  match self.find id with
  | none => return (false, self)
  | some sem => do
    let value ← I32.arith (sem.value.1 + 1)
    let totalPosts ← u64 (sem.totalPosts + 1)
    let waiters := if sem.waiters > 0 then sem.waiters - 1 else sem.waiters
    return (true, self.put { sem with value, totalPosts, waiters })

/-- Remove a semaphore. -/
def destroy (self : SemTable) (id : Nat) : Bool × SemTable :=
  ((self.find id).isSome, { self with sems := discard Semaphore.id self.sems id })

end SemTable

/-! ### Calls -/

/-- The table, with the values that the semaphores were created with. -/
structure System where
  table : SemTable
  initial : Nat → Int

/-- No semaphore exists. -/
def System.start : System := { table := .new, initial := fun _ => 0 }

/-- The semaphore calls. -/
inductive Call
  | init (name : String) (value : I32)
  | wait (id : Nat)
  | trywait (id : Nat)
  | post (id : Nat)
  | destroy (id : Nat)

/-- Perform a call; the initial value of a new semaphore is recorded. -/
def step (s : System) : Call → Exec System
  | .init name value => do
    let (_, table) ← s.table.init name value 0
    if table.sems.length > s.table.sems.length then
      return { table, initial := Function.update s.initial s.table.nextId value.1 }
    else return { s with table }
  | .wait id => do
    let (_, table) ← s.table.wait id
    return { s with table }
  | .trywait id => do
    let (_, table) ← s.table.trywait id
    return { s with table }
  | .post id => do
    let (_, table) ← s.table.post id
    return { s with table }
  | .destroy id => return { s with table := (s.table.destroy id).2 }

/-- The value is the initial one plus the posts minus the waits. -/
def Conserved (sem : Semaphore) (initial : Int) : Prop :=
  sem.value.1 = initial + sem.totalPosts - sem.totalWaits

/-- Every semaphore has its balance and a value in range. -/
def Balanced (s : System) : Prop :=
  ∀ sem ∈ s.table.sems, Conserved sem (s.initial sem.id) ∧
    0 ≤ sem.value.1 ∧ sem.value.1 ≤ sem.maxValue.1

/-- The call changes a value by an operation that overflows `i32`. -/
def Overflows (s : System) : Call → Prop
  | .post id => ∃ sem, s.table.find id = some sem ∧
      I32.arith (sem.value.1 + 1) = .error .overflow
  | .wait id | .trywait id => ∃ sem, s.table.find id = some sem ∧ sem.value.1 > 0 ∧
      I32.arith (sem.value.1 - 1) = .error .overflow
  | .init _ _ | .destroy _ => False

/-- An `init` with this name creates a semaphore. -/
def SemTable.Creates (t : SemTable) (name : String) : Prop :=
  t.findByName name 0 = none ∧ t.sems.length < maxSemaphores ∧ t.nextId + 1 < 2 ^ 64

/-- No semaphore is created with a negative value, and none at `i32::MAX` is posted. -/
def Careful (s : System) : Call → Prop
  | .init name value => s.table.Creates name → 0 ≤ value.1
  | .post id => ∀ sem, s.table.find id = some sem → sem.value.1 < I32.max.1
  | _ => True

/-! ### What the calls do -/

/-- What `init` does: nothing, or it adds a semaphore with the value. -/
theorem of_init {t t' : SemTable} {name : String} {value : I32} {r : Option Nat}
    (h : t.init name value 0 = .ok (r, t')) :
    (¬ t.Creates name ∧ t' = t) ∨
      (t.Creates name ∧ ∃ sem : Semaphore, sem.id = t.nextId ∧ sem.value = value ∧
        sem.maxValue = I32.max ∧ sem.totalPosts = 0 ∧ sem.totalWaits = 0 ∧
        t' = { sems := t.sems ++ [sem], nextId := t.nextId + 1 }) := by
  unfold SemTable.init at h
  cases hname : t.findByName name 0 with
  | some sem =>
    simp only [hname, pure_eq_ok, Except.ok.injEq, Prod.mk.injEq] at h
    exact .inl ⟨fun hcreates => Option.some_ne_none sem (hname.symm.trans hcreates.1), h.2.symm⟩
  | none =>
    simp only [hname] at h
    split_ifs at h with hfull
    · cases h
      exact .inl ⟨fun hcreates => Nat.not_lt.mpr hfull hcreates.2.1, rfl⟩
    · obtain ⟨next, hnext, h⟩ := bind_eq_ok_iff.mp h
      obtain ⟨hlt, rfl⟩ := u64_eq_ok_iff.mp hnext
      cases h
      exact .inr ⟨⟨hname, Nat.not_le.mp hfull, hlt⟩, _, rfl, rfl, rfl, rfl, rfl, rfl⟩

theorem init_of_creates {t : SemTable} {name : String} (h : t.Creates name) (value : I32) :
    ∃ sem : Semaphore, sem.id = t.nextId ∧ sem.value = value ∧
      t.init name value 0 =
        .ok (some t.nextId, { sems := t.sems ++ [sem], nextId := t.nextId + 1 }) := by
  obtain ⟨hname, hfull, hlt⟩ := h
  unfold SemTable.init
  rw [hname]
  dsimp only
  rw [if_neg (Nat.not_le.mpr hfull), u64_eq_ok hlt]
  exact ⟨_, rfl, rfl, rfl⟩

/-- The changes of a semaphore that keep its balance: a successful wait takes one from the
value and counts it, a post adds one and counts it. -/
inductive Change (old : Semaphore) : Semaphore → Prop
  | queued (waiters : Nat) : Change old { old with waiters }
  | acquired (value : I32) (hpos : 0 < old.value.1) (hvalue : value.1 = old.value.1 - 1) :
      Change old { old with value, totalWaits := old.totalWaits + 1 }
  | posted (value : I32) (waiters : Nat) (hvalue : value.1 = old.value.1 + 1) :
      Change old { old with value, totalPosts := old.totalPosts + 1, waiters }

theorem Change.same {old new : Semaphore} (h : Change old new) :
    new.id = old.id ∧ new.maxValue = old.maxValue := by
  cases h with
  | queued => exact ⟨rfl, rfl⟩
  | acquired => exact ⟨rfl, rfl⟩
  | posted => exact ⟨rfl, rfl⟩

/-- Every change keeps the balance. -/
theorem Conserved.step {old new : Semaphore} {initial : Int} (h : Conserved old initial)
    (hchange : Change old new) : Conserved new initial := by
  unfold Conserved at h ⊢
  cases hchange with
  | queued => exact h
  | acquired value _ hvalue =>
    rw [hvalue, h]
    push_cast
    omega
  | posted value waiters hvalue =>
    rw [hvalue, h]
    push_cast
    omega

/-- A value that is not negative stays so. -/
theorem Change.nonneg {old new : Semaphore} (hchange : Change old new) (h : 0 ≤ old.value.1) :
    0 ≤ new.value.1 := by
  cases hchange with
  | queued => exact h
  | acquired value hpos hvalue =>
    show 0 ≤ value.1
    omega
  | posted value waiters hvalue =>
    show 0 ≤ value.1
    omega

/-- Nothing happens, or one semaphore changes. -/
def Effect (t t' : SemTable) : Prop :=
  t' = t ∨ ∃ old new, old ∈ t.sems ∧ Change old new ∧ t' = t.put new

theorem acquire_effect {t t' : SemTable} {sem : Semaphore} {r : Bool} (hsem : sem ∈ t.sems)
    (hpos : 0 < sem.value.1) (h : t.acquire sem = .ok (r, t')) : Effect t t' := by
  obtain ⟨value, hvalue, h⟩ := bind_eq_ok_iff.mp h
  obtain ⟨waits, hwaits, h⟩ := bind_eq_ok_iff.mp h
  obtain ⟨-, rfl⟩ := u64_eq_ok_iff.mp hwaits
  cases h
  exact .inr ⟨sem, _, hsem, .acquired value hpos (I32.of_arith hvalue), rfl⟩

theorem wait_effect {t t' : SemTable} {id : Nat} {r : Bool} (h : t.wait id = .ok (r, t')) :
    Effect t t' := by
  unfold SemTable.wait at h
  cases hfind : t.find id with
  | none =>
    simp only [hfind, pure_eq_ok, Except.ok.injEq, Prod.mk.injEq] at h
    exact .inl h.2.symm
  | some sem =>
    have hsem := (mem_of_lookup hfind).1
    simp only [hfind] at h
    split_ifs at h with hpos
    · exact acquire_effect hsem hpos h
    · obtain ⟨waiters, -, h⟩ := bind_eq_ok_iff.mp h
      cases h
      exact .inr ⟨sem, _, hsem, .queued waiters, rfl⟩

theorem trywait_effect {t t' : SemTable} {id : Nat} {r : Bool} (h : t.trywait id = .ok (r, t')) :
    Effect t t' := by
  unfold SemTable.trywait at h
  cases hfind : t.find id with
  | none =>
    simp only [hfind, pure_eq_ok, Except.ok.injEq, Prod.mk.injEq] at h
    exact .inl h.2.symm
  | some sem =>
    simp only [hfind] at h
    split_ifs at h with hpos
    · exact acquire_effect (mem_of_lookup hfind).1 hpos h
    · cases h
      exact .inl rfl

theorem post_effect {t t' : SemTable} {id : Nat} {r : Bool} (h : t.post id = .ok (r, t')) :
    Effect t t' := by
  unfold SemTable.post at h
  cases hfind : t.find id with
  | none =>
    simp only [hfind, pure_eq_ok, Except.ok.injEq, Prod.mk.injEq] at h
    exact .inl h.2.symm
  | some sem =>
    simp only [hfind] at h
    obtain ⟨value, hvalue, h⟩ := bind_eq_ok_iff.mp h
    obtain ⟨posts, hposts, h⟩ := bind_eq_ok_iff.mp h
    obtain ⟨-, rfl⟩ := u64_eq_ok_iff.mp hposts
    cases h
    exact .inr ⟨sem, _, (mem_of_lookup hfind).1, .posted value _ (I32.of_arith hvalue), rfl⟩

/-! ### Runs -/

/-- The invariant of the careful runs. -/
structure Sound (s : System) : Prop where
  issued : Issued Semaphore.id s.table.nextId s.table.sems
  conserved : ∀ sem ∈ s.table.sems, Conserved sem (s.initial sem.id)
  nonneg : ∀ sem ∈ s.table.sems, 0 ≤ sem.value.1
  maxValue_eq : ∀ sem ∈ s.table.sems, sem.maxValue = I32.max

theorem sound_start : Sound .start where
  issued := Issued.nil 1
  conserved := by intro sem hsem; cases hsem
  nonneg := by intro sem hsem; cases hsem
  maxValue_eq := by intro sem hsem; cases hsem

theorem Sound.balanced {s : System} (h : Sound s) : Balanced s := by
  intro sem hsem
  refine ⟨h.conserved sem hsem, h.nonneg sem hsem, ?_⟩
  rw [h.maxValue_eq sem hsem]
  exact I32.le_max sem.value

theorem Sound.effect {s : System} {table : SemTable} (h : Sound s)
    (heffect : Effect s.table table) : Sound { s with table } := by
  rcases heffect with rfl | ⟨old, new, hold, hchange, rfl⟩
  · exact h
  · obtain ⟨hid, hmax⟩ := hchange.same
    refine ⟨h.issued.replace, fun sem hsem => ?_, fun sem hsem => ?_, fun sem hsem => ?_⟩
    · rcases (h.issued.mem_replace hold hid).mp hsem with rfl | ⟨hsem, -⟩
      · rw [hid]
        exact (h.conserved old hold).step hchange
      · exact h.conserved sem hsem
    · rcases (h.issued.mem_replace hold hid).mp hsem with rfl | ⟨hsem, -⟩
      · exact hchange.nonneg (h.nonneg old hold)
      · exact h.nonneg sem hsem
    · rcases (h.issued.mem_replace hold hid).mp hsem with rfl | ⟨hsem, -⟩
      · exact hmax.trans (h.maxValue_eq old hold)
      · exact h.maxValue_eq sem hsem

/-- A new semaphore with a value that is not negative. -/
theorem Sound.concat {s : System} (h : Sound s) {sem : Semaphore} (hid : sem.id = s.table.nextId)
    (hvalue : 0 ≤ sem.value.1) (hmax : sem.maxValue = I32.max) (hposts : sem.totalPosts = 0)
    (hwaits : sem.totalWaits = 0) :
    Sound {
      table := { sems := s.table.sems ++ [sem], nextId := s.table.nextId + 1 }
      initial := Function.update s.initial s.table.nextId sem.value.1 } := by
  refine ⟨h.issued.concat hid, fun r hr => ?_, fun r hr => ?_, fun r hr => ?_⟩
  · rcases List.mem_append.mp hr with hr | hr
    · have hne : r.id ≠ s.table.nextId := Nat.ne_of_lt (h.issued.key_lt r hr)
      simpa [hne] using h.conserved r hr
    · rw [List.mem_singleton.mp hr]
      simp [Conserved, hid, hposts, hwaits]
  · rcases List.mem_append.mp hr with hr | hr
    · exact h.nonneg r hr
    · rwa [List.mem_singleton.mp hr]
  · rcases List.mem_append.mp hr with hr | hr
    · exact h.maxValue_eq r hr
    · rwa [List.mem_singleton.mp hr]

theorem Sound.step {s s' : System} {call : Call} (h : Sound s) (hcareful : Careful s call)
    (hstep : step s call = .ok s') : Sound s' := by
  cases call with
  | init name value =>
    obtain ⟨⟨r, table⟩, hinit, hrest⟩ := bind_eq_ok_iff.mp hstep
    rcases of_init hinit with ⟨-, rfl⟩ | ⟨hcreates, sem, hid, rfl, hmax, hposts, hwaits, rfl⟩
    · simp only [gt_iff_lt, Nat.lt_irrefl, if_false] at hrest
      cases hrest
      exact h
    · simp only [List.length_append, List.length_singleton, gt_iff_lt, Nat.lt_succ_self,
        if_true] at hrest
      cases hrest
      exact h.concat hid (hcareful hcreates) hmax hposts hwaits
  | wait id =>
    obtain ⟨⟨r, table⟩, hwait, hrest⟩ := bind_eq_ok_iff.mp hstep
    cases hrest
    exact h.effect (wait_effect hwait)
  | trywait id =>
    obtain ⟨⟨r, table⟩, hwait, hrest⟩ := bind_eq_ok_iff.mp hstep
    cases hrest
    exact h.effect (trywait_effect hwait)
  | post id =>
    obtain ⟨⟨r, table⟩, hpost, hrest⟩ := bind_eq_ok_iff.mp hstep
    cases hrest
    exact h.effect (post_effect hpost)
  | destroy id =>
    cases hstep
    refine ⟨h.issued.discard, fun sem hsem => ?_, fun sem hsem => ?_, fun sem hsem => ?_⟩
    · exact h.conserved sem (h.issued.mem_discard.mp hsem).1
    · exact h.nonneg sem (h.issued.mem_discard.mp hsem).1
    · exact h.maxValue_eq sem (h.issued.mem_discard.mp hsem).1

/-- No operation of a careful call overflows. -/
theorem not_overflows {s : System} {call : Call} (hcareful : Careful s call) :
    ¬ Overflows s call := by
  cases call with
  | init => exact id
  | destroy => exact id
  | post id =>
    rintro ⟨sem, hfind, herror⟩
    have hlt := hcareful sem hfind
    have hrange := sem.value.2
    have hmax : I32.max.1 = 2147483647 := rfl
    exact (I32.arith_eq_error_iff.mp herror).2 (by omega)
  | wait id | trywait id =>
    rintro ⟨sem, -, hpos, herror⟩
    have hrange := sem.value.2
    exact (I32.arith_eq_error_iff.mp herror).2 (by omega)

/-- A call that is not careful overflows, or it creates a semaphore with a negative value. -/
theorem not_balanced_of_not_careful {s : System} {call : Call} (hmiss : ¬ Careful s call)
    (hover : ¬ Overflows s call) : ∃ s', step s call = .ok s' ∧ ¬ Balanced s' := by
  cases call with
  | init name value =>
    obtain ⟨hcreates, hneg⟩ := Classical.not_imp.mp hmiss
    obtain ⟨sem, hid, rfl, hinit⟩ := init_of_creates hcreates value
    have hstep : Sem.step s (.init name sem.value) =
        .ok {
          table := { sems := s.table.sems ++ [sem], nextId := s.table.nextId + 1 }
          initial := Function.update s.initial s.table.nextId sem.value.1 } := by
      simp only [Sem.step, hinit, ok_bind, List.length_append, List.length_singleton, gt_iff_lt,
        Nat.lt_succ_self, if_true]
      rfl
    refine ⟨_, hstep, fun hbalanced => ?_⟩
    exact hneg (hbalanced sem (List.mem_append_right _ (List.mem_singleton_self sem))).2.1
  | post id =>
    simp only [Careful, not_forall] at hmiss
    obtain ⟨sem, hfind, hge⟩ := hmiss
    have hmax : I32.max.1 = 2147483647 := rfl
    refine absurd ⟨sem, hfind, ?_⟩ hover
    exact I32.arith_eq_error_iff.mpr ⟨rfl, by omega⟩
  | wait | trywait | destroy => exact absurd trivial hmiss

/-- In a run of semaphore calls, every value is the initial one plus the posts minus the waits
and lies between 0 and `max_value` throughout, and no `i32` operation overflows, exactly when
no semaphore is created with a negative value and no semaphore at `i32::MAX` is posted. -/
theorem always_balanced_iff (calls : List Call) :
    Always step Balanced .start calls ∧ Guarded step (fun s call => ¬ Overflows s call) .start calls
      ↔ Guarded step Careful .start calls :=
  always_safe_iff_guarded Sound (fun _ h => h.balanced) (fun _ _ _ hc => not_overflows hc)
    (fun _ _ _ h hc hs => h.step hc hs)
    (fun _ _ _ hmiss hover => not_balanced_of_not_careful hmiss hover) sound_start calls

/-- A semaphore can be created with the value -1, and one at `i32::MAX` overflows when it is
posted. -/
theorem negative_value_and_overflow :
    (∃ s, run step .start [.init "s" ⟨-1, by decide⟩] = .ok s ∧
      s.table.sems.map (fun sem => sem.value.1) = [-1] ∧ ¬ Balanced s) ∧
    run step .start [.init "s" I32.max, .post 1] = .error .overflow := by
  refine ⟨⟨_, rfl, rfl, fun hbalanced => ?_⟩, rfl⟩
  have hnonneg := (hbalanced _ List.mem_cons_self).2.1
  exact absurd hnonneg (by decide)

end MerlionKernel.Ipc.Sem
