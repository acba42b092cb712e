import MerlionKernel.Capability.Table

/-!
# Where capabilities come from

What a process may use is always permitted to it. A child gets what its parent has as inheritable,
and nothing else; this set is kept apart from the permitted one, so a parent can pass on what it is
not permitted itself, and a capability that is revoked from its effective set is still passed
on. It is only when every `set_caps` keeps the inheritable set within the permitted one that
children get no more than their parents are permitted.
-/

namespace MerlionKernel.Capability

/-- Every capability in `a` is in `b`. -/
def Within (a b : Caps) : Prop := a &&& b = a

instance (a b : Caps) : Decidable (Within a b) := inferInstanceAs (Decidable (_ = _))

variable {a b c : Caps}

theorem and_eq_iff : a &&& b = c ↔ ∀ i, (a.getLsbD i && b.getLsbD i) = c.getLsbD i := by
  constructor
  · rintro rfl i
    rw [BitVec.getLsbD_and]
  · intro h
    apply BitVec.eq_of_getLsbD_eq
    intro i _
    rw [BitVec.getLsbD_and, h i]

theorem within_iff : Within a b ↔ ∀ i, a.getLsbD i = true → b.getLsbD i = true := by
  simp only [Within, and_eq_iff, Bool.and_eq_left_iff_imp]

namespace Within

theorem refl (a : Caps) : Within a a := BitVec.and_self

theorem zero (a : Caps) : Within 0 a := BitVec.zero_and

theorem trans (h : Within a b) (h' : Within b c) : Within a c :=
  within_iff.mpr fun i hi => within_iff.mp h' i (within_iff.mp h i hi)

theorem and_right (a b : Caps) : Within (a &&& b) b := by
  rw [within_iff]
  intro i hi
  rw [BitVec.getLsbD_and, Bool.and_eq_true] at hi
  exact hi.2

theorem and_left (a b : Caps) : Within (a &&& b) a := by
  rw [within_iff]
  intro i hi
  rw [BitVec.getLsbD_and, Bool.and_eq_true] at hi
  exact hi.1

theorem or_right (h : Within a b) (c : Caps) : Within a (b ||| c) := by
  rw [within_iff] at h ⊢
  intro i hi
  rw [BitVec.getLsbD_or, h i hi, Bool.true_or]

theorem or (h : Within a b) (c : Caps) : Within (a ||| c) (b ||| c) := by
  rw [within_iff] at h ⊢
  intro i hi
  rw [BitVec.getLsbD_or, Bool.or_eq_true] at hi ⊢
  exact hi.imp_left (h i)

end Within

/-- No capability in `a` is in `c`. -/
theorem and_eq_zero_iff : a &&& c = 0 ↔ ∀ i, a.getLsbD i = true → c.getLsbD i = false := by
  simp [and_eq_iff]

/-! ### Sequences of calls -/

/-- The calls that change the table. -/
inductive Op
  | setCaps (pid : Nat) (effective permitted inheritable : Caps)
  | grantCap (pid : Nat) (cap : Caps)
  | revokeCap (pid : Nat) (cap : Caps)
  | inheritCaps (parentPid childPid : Nat)
  | dropCaps (pid : Nat)

/-- One call. -/
def step (t : CapsTable) : Op → CapsTable
  | .setCaps pid effective permitted inheritable =>
    setCaps t pid effective permitted inheritable
  | .grantCap pid cap => grantCap t pid cap
  | .revokeCap pid cap => revokeCap t pid cap
  | .inheritCaps parentPid childPid => inheritCaps t parentPid childPid
  | .dropCaps pid => dropCaps t pid

/-- The table after a sequence of calls. -/
def after (t : CapsTable) (ops : List Op) : CapsTable := ops.foldl step t

/-- What every call keeps holds after every sequence of calls. -/
theorem after_invariant (inv : CapsTable → Prop) {ops : List Op}
    (hstep : ∀ op ∈ ops, ∀ t, inv t → inv (step t op)) {t : CapsTable} (h : inv t) :
    inv (after t ops) := by
  induction ops generalizing t with
  | nil => exact h
  | cons op ops ih =>
    rw [List.forall_mem_cons] at hstep
    exact ih hstep.2 (hstep.1 t h)

/-- The effective set of a process. -/
def effective (t : CapsTable) (pid : Nat) : Caps := (getCaps t pid).1

/-- The permitted set of a process. -/
def permitted (t : CapsTable) (pid : Nat) : Caps := (getCaps t pid).2.1

/-- The inheritable set of a process. -/
def inheritable (t : CapsTable) (pid : Nat) : Caps := (getCaps t pid).2.2

/-- The three sets of a process are part of a set. -/
def HoldsOnly (t : CapsTable) (pid : Nat) (caps : Caps) : Prop :=
  Within (effective t pid) caps ∧ Within (permitted t pid) caps ∧ Within (inheritable t pid) caps

variable {t : CapsTable} {pid p parent child : Nat} {cap : Caps}

/-! ### Effective and permitted -/

/-- One call keeps every effective set within the permitted one. -/
theorem step_within (h : ∀ pid, Within (effective t pid) (permitted t pid)) (op : Op) (pid : Nat) :
    Within (effective (step t op) pid) (permitted (step t op) pid) := by
  unfold effective permitted at *
  cases op with
  | setCaps k e p i =>
    rw [step, getCaps_setCaps]
    split
    · exact .and_right e p
    · exact h pid
  | grantCap k cap =>
    rw [step, getCaps_grantCap]
    split
    · exact (h k).or cap
    · exact h pid
  | revokeCap k cap =>
    rw [step, getCaps_revokeCap]
    split
    · exact (Within.and_left _ _).trans (h k)
    · exact h pid
  | inheritCaps parent child =>
    rw [step, getCaps_inheritCaps]
    split
    · exact .refl _
    · exact h pid
  | dropCaps k =>
    rw [step, getCaps_dropCaps]
    split
    · exact .refl 0
    · exact h pid

/-! ### Inheriting -/

theorem getCaps_of_not_admits (h : ¬ t.Admits pid) : getCaps t pid = (0, 0, 0) := by
  have hnone : t.find pid = none :=
    find_eq_none_iff.mpr (by simpa using fun hpresent => h (.inl hpresent))
  rw [getCaps_eq, hnone]
  rfl

/-- A child gets nothing but what its parent has as inheritable. -/
theorem inheritCaps_holdsOnly (t : CapsTable) (parent child : Nat) :
    HoldsOnly (inheritCaps t parent child) child (inheritable t parent) := by
  unfold HoldsOnly effective permitted inheritable
  rw [getCaps_inheritCaps]
  by_cases hadmits : t.Admits child
  · rw [if_pos ⟨rfl, hadmits⟩]
    exact ⟨.refl _, .refl _, .refl _⟩
  · rw [if_neg fun h => hadmits h.2, getCaps_of_not_admits hadmits]
    exact ⟨.zero _, .zero _, .zero _⟩

/-- A `set_caps` call keeps the inheritable set within the permitted one. -/
def KeepsWithin : Op → Prop
  | .setCaps _ _ permitted inheritable => Within inheritable permitted
  | _ => True

theorem step_inheritable_within (h : ∀ pid, Within (inheritable t pid) (permitted t pid)) {op : Op}
    (hop : KeepsWithin op) (pid : Nat) :
    Within (inheritable (step t op) pid) (permitted (step t op) pid) := by
  unfold inheritable permitted at *
  cases op with
  | setCaps k e p i =>
    rw [step, getCaps_setCaps]
    split
    · exact hop
    · exact h pid
  | grantCap k cap =>
    rw [step, getCaps_grantCap]
    split
    · exact (h k).or_right cap
    · exact h pid
  | revokeCap k cap =>
    rw [step, getCaps_revokeCap]
    split
    · exact h k
    · exact h pid
  | inheritCaps parent child =>
    rw [step, getCaps_inheritCaps]
    split
    · exact .refl _
    · exact h pid
  | dropCaps k =>
    rw [step, getCaps_dropCaps]
    split
    · exact .refl 0
    · exact h pid

/-! ### Revoking -/

/-- The call gives the process some of the capabilities to use: it grants them or sets them, or it
sets the process up as a child. -/
def Gives (p : Nat) (cap : Caps) : Op → Prop
  | .setCaps pid effective permitted _ => pid = p ∧ (effective &&& permitted) &&& cap ≠ 0
  | .grantCap pid cap' => pid = p ∧ cap' &&& cap ≠ 0
  | .inheritCaps _ childPid => childPid = p
  | .revokeCap _ _ => False
  | .dropCaps _ => False

theorem effective_revokeCap (t : CapsTable) (p : Nat) (cap : Caps) :
    effective (revokeCap t p cap) p &&& cap = 0 := by
  rw [effective, getCaps_revokeCap, if_pos rfl, and_eq_zero_iff]
  intro i hi
  rw [BitVec.getLsbD_and, Bool.and_eq_true, BitVec.getLsbD_not, Bool.and_eq_true] at hi
  simpa using hi.2.2

/-- Revoking leaves the inheritable sets as they are. -/
theorem inheritable_revokeCap (t : CapsTable) (p : Nat) (cap : Caps) (k : Nat) :
    inheritable (revokeCap t p cap) k = inheritable t k := by
  unfold inheritable
  rw [getCaps_revokeCap]
  split
  · rename_i hk
    rw [hk]
  · rfl

theorem step_disjoint (h : effective t p &&& cap = 0) {op : Op} (hop : ¬ Gives p cap op) :
    effective (step t op) p &&& cap = 0 := by
  unfold effective at *
  cases op with
  | setCaps k e pm i =>
    rw [step, getCaps_setCaps]
    split
    · rename_i hk
      by_contra hbits
      exact hop ⟨hk.1.symm, hbits⟩
    · exact h
  | grantCap k cap' =>
    rw [step, getCaps_grantCap]
    split
    · rename_i hk
      have hcap : cap' &&& cap = 0 := by
        by_contra hbits
        exact hop ⟨hk.1.symm, hbits⟩
      rw [← hk.1, and_eq_zero_iff]
      rw [and_eq_zero_iff] at h hcap
      intro i hi
      rw [BitVec.getLsbD_or, Bool.or_eq_true] at hi
      exact hi.elim (h i) (hcap i)
    · exact h
  | revokeCap k cap' =>
    rw [step, getCaps_revokeCap]
    split
    · rename_i hk
      rw [← hk, and_eq_zero_iff]
      rw [and_eq_zero_iff] at h
      intro i hi
      rw [BitVec.getLsbD_and, Bool.and_eq_true] at hi
      exact h i hi.1
    · exact h
  | inheritCaps parent child =>
    rw [step, getCaps_inheritCaps, if_neg fun hk => hop hk.1.symm]
    exact h
  | dropCaps k =>
    rw [step, getCaps_dropCaps]
    split
    · exact BitVec.zero_and
    · exact h

/-- A revoked capability stays away until it is given again. -/
theorem effective_disjoint_of_not_gives (t : CapsTable) {later : List Op}
    (hlater : ∀ op ∈ later, ¬ Gives p cap op) :
    effective (after (revokeCap t p cap) later) p &&& cap = 0 :=
  after_invariant (fun t => effective t p &&& cap = 0)
    (fun op hop _ h => step_disjoint h (hlater op hop)) (effective_revokeCap t p cap)

/-! ### After any sequence of calls -/

theorem getCaps_init (pid : Nat) :
    getCaps init pid = if pid = 0 then (capAll, capAll, capAll) else (0, 0, 0) := by
  by_cases hpid : pid = 0
  · subst hpid
    rfl
  · rw [if_neg hpid]
    simp [getCaps, CapsTable.find, init, Ne.symm hpid]

/-- After any sequence of calls every effective set is within the permitted one. A child gets only
what its parent has as inheritable, and that is permitted to the parent when every `set_caps` call
kept the inheritable set within the permitted one. A process from which a capability is revoked
does not have it in use until it is given again; its inheritable set stays as it is. -/
theorem after_confined (ops : List Op) :
    (∀ pid, Within (effective (after init ops) pid) (permitted (after init ops) pid)) ∧
    (∀ parent child,
      HoldsOnly (inheritCaps (after init ops) parent child) child
        (inheritable (after init ops) parent) ∧
      ((∀ op ∈ ops, KeepsWithin op) →
        HoldsOnly (inheritCaps (after init ops) parent child) child
          (permitted (after init ops) parent))) ∧
    ∀ p cap,
      (∀ later, (∀ op ∈ later, ¬ Gives p cap op) →
        effective (after (revokeCap (after init ops) p cap) later) p &&& cap = 0) ∧
      ∀ k, inheritable (revokeCap (after init ops) p cap) k = inheritable (after init ops) k := by
  refine ⟨?_, fun parent child => ⟨inheritCaps_holdsOnly _ parent child, fun hkeeps => ?_⟩,
    fun p cap => ⟨fun later hlater => effective_disjoint_of_not_gives _ hlater,
      inheritable_revokeCap _ p cap⟩⟩
  · apply after_invariant (fun t => ∀ pid, Within (effective t pid) (permitted t pid))
      fun op _ t h => step_within h op
    intro pid
    unfold effective permitted
    rw [getCaps_init]
    split
    · exact .refl _
    · exact .refl _
  · have hwithin : ∀ pid,
        Within (inheritable (after init ops) pid) (permitted (after init ops) pid) := by
      apply after_invariant (fun t => ∀ pid, Within (inheritable t pid) (permitted t pid))
        fun op hop t h => step_inheritable_within h (hkeeps op hop)
      intro pid
      unfold inheritable permitted
      rw [getCaps_init]
      split
      · exact .refl _
      · exact .refl _
    obtain ⟨heffective, hpermitted, hinheritable⟩ :=
      inheritCaps_holdsOnly (after init ops) parent child
    exact ⟨heffective.trans (hwithin parent), hpermitted.trans (hwithin parent),
      hinheritable.trans (hwithin parent)⟩

/-- A parent passes on a capability that it is not permitted; and a capability that is revoked from
a parent reaches a child that inherits afterwards. -/
theorem inherits_unpermitted_and_revoked :
    (hasCap (after init [.setCaps 1 0 0 capKill, .inheritCaps 1 2]) 2 capKill = true ∧
      ¬ Within capKill (permitted (after init [.setCaps 1 0 0 capKill]) 1)) ∧
    hasCap (after init [.setCaps 1 capKill capKill capKill, .revokeCap 1 capKill,
      .inheritCaps 1 2]) 2 capKill = true := by
  decide

end MerlionKernel.Capability
