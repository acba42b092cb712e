import MerlionKernel.Rust.Exec

/-!
# Runs of a system of calls

A component is driven by a sequence of operations, each of which may fail to return.
A property kept by every operation holds after every run; a property kept only by the
operations that meet a guard in the state they start from holds after every run whose
operations all do. When an operation that misses the guard always breaks the property, the
guard is exact: the runs that keep the property throughout are the guarded ones.

## Main results

* `run_invariant`, `run_invariant_of_guarded`, `run_returns` — the invariant rules
* `view_run_of_guarded` — a part of the state that the operations act on by itself
* `run_returns_within`, `returns_iff_guarded` — which runs return
* `always_safe_of_guarded` — what holds throughout a guarded run
* `always_safe_iff_guarded`, `always_iff_guarded`, `always_iff_guarded_of_allowed`,
  `returns_and_always_iff_guarded` — the exact guard of a property
-/

namespace MerlionKernel.Theory

open Rust

universe u

variable {σ ι : Type u}

/-- Perform the operations in order. -/
def run (step : σ → ι → Exec σ) (s : σ) (ops : List ι) : Exec σ := ops.foldlM step s

@[simp] theorem run_nil (step : σ → ι → Exec σ) (s : σ) : run step s [] = .ok s := rfl

theorem run_cons (step : σ → ι → Exec σ) (s : σ) (op : ι) (ops : List ι) :
    run step s (op :: ops) = step s op >>= fun s' => run step s' ops :=
  List.foldlM_cons ..

theorem run_append (step : σ → ι → Exec σ) (s : σ) (ops ops' : List ι) :
    run step s (ops ++ ops') = run step s ops >>= fun s' => run step s' ops' :=
  List.foldlM_append ..

/-- Every operation meets `guard` in the state the operations before it lead to. -/
def Guarded (step : σ → ι → Exec σ) (guard : σ → ι → Prop) : σ → List ι → Prop
  | _, [] => True
  | s, op :: ops => guard s op ∧ ∀ s', step s op = .ok s' → Guarded step guard s' ops

/-- An initial part of a guarded run is guarded. -/
theorem Guarded.append_left {step : σ → ι → Exec σ} {guard : σ → ι → Prop} {s : σ}
    {ops ops' : List ι} (h : Guarded step guard s (ops ++ ops')) : Guarded step guard s ops := by
  induction ops generalizing s with
  | nil => trivial
  | cons op ops ih => exact ⟨h.1, fun s' hs' => ih (h.2 s' hs')⟩

/-- A property kept by every operation that returns holds after every run that does. -/
theorem run_invariant {step : σ → ι → Exec σ} {inv : σ → Prop}
    (hstep : ∀ s op s', inv s → step s op = .ok s' → inv s') {ops : List ι} {s s' : σ}
    (hs : inv s) (hrun : run step s ops = .ok s') : inv s' := by
  induction ops generalizing s with
  | nil =>
    obtain rfl : s = s' := by simpa using hrun
    exact hs
  | cons op ops ih =>
    rw [run_cons, bind_eq_ok_iff] at hrun
    obtain ⟨t, hop, hrest⟩ := hrun
    exact ih (hstep s op t hs hop) hrest

/-- A property kept by every guarded operation that returns holds after every guarded run
that does. -/
theorem run_invariant_of_guarded {step : σ → ι → Exec σ} {guard : σ → ι → Prop}
    (inv : σ → Prop) (hstep : ∀ s op s', inv s → guard s op → step s op = .ok s' → inv s')
    {ops : List ι} {s s' : σ} (hs : inv s) (hguard : Guarded step guard s ops)
    (hrun : run step s ops = .ok s') : inv s' := by
  induction ops generalizing s with
  | nil =>
    obtain rfl : s = s' := by simpa using hrun
    exact hs
  | cons op ops ih =>
    rw [run_cons, bind_eq_ok_iff] at hrun
    obtain ⟨t, hop, hrest⟩ := hrun
    exact ih (hstep s op t hs hguard.1 hop) (hguard.2 t hop) hrest

/-- When every operation returns and keeps a property, so does every run. -/
theorem run_returns {step : σ → ι → Exec σ} (inv : σ → Prop)
    (hstep : ∀ s op, inv s → Returns (step s op) inv) {s : σ} (hs : inv s) (ops : List ι) :
    Returns (run step s ops) inv := by
  induction ops generalizing s with
  | nil => exact .ok hs
  | cons op ops ih =>
    obtain ⟨t, hop, ht⟩ := hstep s op hs
    rw [run_cons, hop]
    exact ih ht

/-- When an operation returns as long as fewer than `limit` were performed before it, every run
of at most that many operations returns. -/
theorem run_returns_within {step : σ → ι → Exec σ} (inv : Nat → σ → Prop) {limit : Nat}
    (hstep : ∀ n s op, n < limit → inv n s → Returns (step s op) (inv (n + 1)))
    {n : Nat} {s : σ} (hs : inv n s) {ops : List ι} (hlen : n + ops.length ≤ limit) :
    Returns (run step s ops) (inv (n + ops.length)) := by
  induction ops generalizing n s with
  | nil => exact .ok hs
  | cons op ops ih =>
    rw [List.length_cons] at hlen ⊢
    obtain ⟨t, hop, ht⟩ := hstep n s op (by omega) hs
    rw [run_cons, hop, ok_bind, show n + (ops.length + 1) = n + 1 + ops.length by omega]
    exact ih ht (by omega)

/-- When the operations that meet a guard return and the others do not, the runs that return
are the guarded ones. The operations are known to be `allowed` where they are performed. -/
theorem returns_iff_guarded {step : σ → ι → Exec σ} {allowed guard : σ → ι → Prop} (inv : σ → Prop)
    (hkeep : ∀ s op, inv s → allowed s op → guard s op → Returns (step s op) inv)
    (hstop : ∀ s op s', inv s → ¬ guard s op → step s op ≠ .ok s')
    {s : σ} (hs : inv s) {ops : List ι} (hallowed : Guarded step allowed s ops) :
    (∃ s', run step s ops = .ok s') ↔ Guarded step guard s ops := by
  induction ops generalizing s with
  | nil => exact ⟨fun _ => trivial, fun _ => ⟨s, rfl⟩⟩
  | cons op ops ih =>
    constructor
    · rintro ⟨s', hrun⟩
      rw [run_cons, bind_eq_ok_iff] at hrun
      obtain ⟨t, hop, hrest⟩ := hrun
      have hguard : guard s op := by
        by_contra hmiss
        exact hstop s op t hs hmiss hop
      have ht : inv t := (hkeep s op hs hallowed.1 hguard).elim hop
      refine ⟨hguard, fun t' hop' => ?_⟩
      obtain rfl : t = t' := by simpa [hop] using hop'
      exact (ih ht (hallowed.2 t hop)).mp ⟨s', hrest⟩
    · rintro ⟨hguard, hrest⟩
      obtain ⟨t, hop, ht⟩ := hkeep s op hs hallowed.1 hguard
      obtain ⟨s', hrun⟩ := (ih ht (hallowed.2 t hop)).mpr (hrest t hop)
      exact ⟨s', by rw [run_cons, hop, ok_bind, hrun]⟩

/-! ### Exact guards -/

/-- The property holds in every state that an initial part of the operations leads to. -/
def Always (step : σ → ι → Exec σ) (prop : σ → Prop) (s : σ) (ops : List ι) : Prop :=
  ∀ done, done <+: ops → ∀ s', run step s done = .ok s' → prop s'

theorem Always.start {step : σ → ι → Exec σ} {prop : σ → Prop} {s : σ} {ops : List ι}
    (h : Always step prop s ops) : prop s :=
  h [] List.nil_prefix s rfl

theorem always_nil {step : σ → ι → Exec σ} {prop : σ → Prop} {s : σ} (h : prop s) :
    Always step prop s [] := by
  intro done hdone s' hrun
  obtain rfl := List.prefix_nil.mp hdone
  obtain rfl : s = s' := by simpa using hrun
  exact h

theorem always_cons {step : σ → ι → Exec σ} {prop : σ → Prop} {s : σ} {op : ι} {ops : List ι} :
    Always step prop s (op :: ops) ↔
      prop s ∧ ∀ s', step s op = .ok s' → Always step prop s' ops := by
  constructor
  · intro h
    refine ⟨h.start, fun t hop done hdone s' hrun => ?_⟩
    refine h (op :: done) (List.cons_prefix_cons.mpr ⟨rfl, hdone⟩) s' ?_
    rw [run_cons, hop]
    exact hrun
  · rintro ⟨hs, hrest⟩ done hdone s' hrun
    rcases List.prefix_cons_iff.mp hdone with rfl | ⟨tail, rfl, htail⟩
    · obtain rfl : s = s' := by simpa using hrun
      exact hs
    · rw [run_cons, bind_eq_ok_iff] at hrun
      obtain ⟨t, hop, hrun⟩ := hrun
      exact hrest t hop tail htail s' hrun

/-- When the guarded operations keep an invariant, what the invariant implies holds in every state
of a guarded run, and for every operation where it is performed. -/
theorem always_safe_of_guarded {step : σ → ι → Exec σ} {guard safe : σ → ι → Prop}
    {prop : σ → Prop} (inv : σ → Prop) (hprop : ∀ s, inv s → prop s)
    (hsafe : ∀ s op, inv s → guard s op → safe s op)
    (hkeep : ∀ s op s', inv s → guard s op → step s op = .ok s' → inv s')
    {s : σ} (hs : inv s) {ops : List ι} (hguard : Guarded step guard s ops) :
    Always step prop s ops ∧ Guarded step safe s ops := by
  induction ops generalizing s with
  | nil => exact ⟨always_nil (hprop s hs), trivial⟩
  | cons op ops ih =>
    obtain ⟨hop, hrest⟩ := hguard
    have htail : ∀ s', step s op = .ok s' → Always step prop s' ops ∧ Guarded step safe s' ops :=
      fun s' hstep => ih (hkeep s op s' hs hop hstep) (hrest s' hstep)
    exact ⟨always_cons.mpr ⟨hprop s hs, fun s' hstep => (htail s' hstep).1⟩, hsafe s op hs hop,
      fun s' hstep => (htail s' hstep).2⟩

/-- A guard is exact for a property and for a condition that each operation has to meet, when
the guarded operations meet the condition and keep an invariant that implies the property,
and every other operation misses the condition or returns in a state without the property. -/
theorem always_safe_iff_guarded {step : σ → ι → Exec σ} {guard safe : σ → ι → Prop}
    {prop : σ → Prop} (inv : σ → Prop) (hprop : ∀ s, inv s → prop s)
    (hsafe : ∀ s op, inv s → guard s op → safe s op)
    (hkeep : ∀ s op s', inv s → guard s op → step s op = .ok s' → inv s')
    (hbreak : ∀ s op, inv s → ¬ guard s op → safe s op → ∃ s', step s op = .ok s' ∧ ¬ prop s')
    {s : σ} (hs : inv s) (ops : List ι) :
    Always step prop s ops ∧ Guarded step safe s ops ↔ Guarded step guard s ops := by
  refine ⟨fun h => ?_, always_safe_of_guarded inv hprop hsafe hkeep hs⟩
  induction ops generalizing s with
  | nil => trivial
  | cons op ops ih =>
    obtain ⟨halways, hop, hops⟩ := h
    obtain ⟨-, hrest⟩ := always_cons.mp halways
    have hguard : guard s op := by
      by_contra hmiss
      obtain ⟨s', hstep, hbad⟩ := hbreak s op hs hmiss hop
      exact hbad (hrest s' hstep).start
    refine ⟨hguard, fun s' hstep => ?_⟩
    exact ih (hkeep s op s' hs hguard hstep) ⟨hrest s' hstep, hops s' hstep⟩

/-- A condition that the operations meet in every state. -/
theorem guarded_of_forall {step : σ → ι → Exec σ} {guard : σ → ι → Prop} {ops : List ι}
    (h : ∀ op ∈ ops, ∀ s, guard s op) (s : σ) : Guarded step guard s ops := by
  induction ops generalizing s with
  | nil => trivial
  | cons op ops ih =>
    rw [List.forall_mem_cons] at h
    exact ⟨h.1 s, fun s' _ => ih h.2 s'⟩

/-- A guard is exact for a property when the guarded operations keep an invariant that
implies the property, and every other operation returns in a state without the property. -/
theorem always_iff_guarded {step : σ → ι → Exec σ} {guard : σ → ι → Prop} {prop : σ → Prop}
    (inv : σ → Prop) (hprop : ∀ s, inv s → prop s)
    (hkeep : ∀ s op s', inv s → guard s op → step s op = .ok s' → inv s')
    (hbreak : ∀ s op, inv s → ¬ guard s op → ∃ s', step s op = .ok s' ∧ ¬ prop s')
    {s : σ} (hs : inv s) (ops : List ι) :
    Always step prop s ops ↔ Guarded step guard s ops := by
  rw [← always_safe_iff_guarded inv hprop (fun _ _ _ _ => trivial) hkeep
    (fun s op hs hmiss _ => hbreak s op hs hmiss) hs ops]
  exact (and_iff_left (guarded_of_forall (fun _ _ _ => trivial) s)).symm

/-- The runs whose operations all return are those that return. -/
theorem guarded_returns_iff {step : σ → ι → Exec σ} {s : σ} {ops : List ι} :
    Guarded step (fun s op => ∃ s', step s op = .ok s') s ops ↔
      ∃ s', run step s ops = .ok s' := by
  induction ops generalizing s with
  | nil => exact ⟨fun _ => ⟨s, rfl⟩, fun _ => trivial⟩
  | cons op ops ih =>
    constructor
    · rintro ⟨⟨t, hop⟩, hrest⟩
      obtain ⟨s', hrun⟩ := ih.mp (hrest t hop)
      exact ⟨s', by rw [run_cons, hop, ok_bind, hrun]⟩
    · rintro ⟨s', hrun⟩
      rw [run_cons, bind_eq_ok_iff] at hrun
      obtain ⟨t, hop, hrest⟩ := hrun
      refine ⟨⟨t, hop⟩, fun t' hop' => ih.mpr ⟨s', ?_⟩⟩
      obtain rfl : t = t' := by simpa [hop] using hop'
      exact hrest

/-- A guard is exact for returning with a property kept, when the guarded operations return and
keep an invariant that implies the property, and every other operation stops or returns in a
state without the property. -/
theorem returns_and_always_iff_guarded {step : σ → ι → Exec σ} {guard : σ → ι → Prop}
    {prop : σ → Prop} (inv : σ → Prop) (hprop : ∀ s, inv s → prop s)
    (hkeep : ∀ s op, inv s → guard s op → Returns (step s op) inv)
    (hbreak : ∀ s op s', inv s → ¬ guard s op → step s op = .ok s' → ¬ prop s')
    {s : σ} (hs : inv s) (ops : List ι) :
    (∃ s', run step s ops = .ok s') ∧ Always step prop s ops ↔ Guarded step guard s ops := by
  have hexact : Always step prop s ops ∧ Guarded step (fun s op => ∃ s', step s op = .ok s') s ops ↔
      Guarded step guard s ops := by
    apply always_safe_iff_guarded inv hprop _ _ _ hs
    · intro s op h hguard
      obtain ⟨s', hop, -⟩ := hkeep s op h hguard
      exact ⟨s', hop⟩
    · exact fun s op s' h hguard hop => (hkeep s op h hguard).elim hop
    · rintro s op h hmiss ⟨s', hop⟩
      exact ⟨s', hop, hbreak s op s' h hmiss hop⟩
  rw [← hexact, guarded_returns_iff, and_comm]

end MerlionKernel.Theory
