import MerlionKernel.Service.Model
import MerlionKernel.Theory.Run

/-!
# Supervision of services

What is expected of the service manager over a whole history of calls, and the calls that keep it.
A start sets the count of restarts back to zero, also when it is an automatic one, so the bound on
the restarts has to be kept by those who call `check_restart`; and `stop` does not look for services
that require the one it stops. Starting and restarting services is always safe.
-/

namespace MerlionKernel.Service

open Rust Theory

/-! ### What is expected -/

/-- The automatic restarts of a service since it was last started by a call. -/
def restartsSince (name : String) : List Event → Nat
  | [] => 0
  | event :: history =>
    if event = .started name then 0
    else if event = .restarted name then restartsSince name history + 1
    else restartsSince name history

/-- The service has a `Requires` dependency on the name. -/
def ServiceUnit.Requires (svc : ServiceUnit) (name : String) : Prop :=
  ∃ dep ∈ svc.dependencies, dep.kind = .requires ∧ dep.target = name

/-- All that the service requires is running. -/
def Satisfied (services : Services) (svc : ServiceUnit) : Prop :=
  ∀ name, svc.Requires name → isRunning services name

/-- No service was restarted more often than `max_retries` since its last start. -/
def WithinRetries (s : Session) : Prop :=
  ∀ svc ∈ s.services, restartsSince svc.name s.history ≤ svc.maxRetries

/-- A service that was restarted automatically when it had been stopped by a call has the policy
`Always`. -/
def StopsRespected (s : Session) : Prop :=
  ∀ svc ∈ s.services,
    [.restarted svc.name, .stopped svc.name] <:+: s.history.filter (·.name = svc.name) →
      svc.restartPolicy = .always

/-- All that a running service requires is running. -/
def RequiresRunning (services : Services) : Prop :=
  ∀ svc ∈ services, svc.state = .running → Satisfied services svc

/-- The session is as expected. -/
def Supervised (s : Session) : Prop :=
  WithinRetries s ∧ StopsRespected s ∧ RequiresRunning s.services

/-! ### Calls that keep it -/

/-- If the service can be started, it has been restarted fewer than `max_retries` times since its
last start. -/
def HasRetry (s : Session) (name : String) : Prop :=
  ∀ svc ∈ s.services, svc.name = name → Satisfied s.services svc →
    restartsSince name s.history < svc.maxRetries

/-- A service is only stopped when no running one requires it, and the services that are due have
retries left at their turn. -/
def Careful (s : Session) : Nat × Call → Prop
  | (_, .start _) => True
  | (_, .restart _) => True
  | (_, .stop name) => isRunning s.services name →
      ∀ svc ∈ s.services, svc.state = .running → ¬ svc.Requires name
  | (now, .checkRestart) => ∀ names, toRestart now s.services = .ok names →
      Guarded (Session.retry now) HasRetry s names

/-! ### Changing one service -/

variable {services : Services} {svc : ServiceUnit} {name : String} {f g : ServiceUnit → ServiceUnit}
  {now : Nat}

theorem isRunning_iff :
    isRunning services name ↔ ∃ t ∈ services, t.name = name ∧ t.state = .running := by
  simp [isRunning]

theorem find?_unmet_eq_none_iff :
    svc.dependencies.find? (unmet services) = none ↔ Satisfied services svc := by
  rw [List.find?_eq_none]
  constructor
  · rintro h name ⟨dep, hdep, hkind, rfl⟩
    simpa [unmet, hkind] using h dep hdep
  · intro h dep hdep hunmet
    simp only [unmet, Bool.and_eq_true, decide_eq_true_eq, Bool.not_eq_true'] at hunmet
    have := h dep.target ⟨dep, hdep, hunmet.1, rfl⟩
    simp [hunmet.2] at this

/-- The change keeps what the unit was registered with. -/
structure Keeps (f : ServiceUnit → ServiceUnit) : Prop where
  name : ∀ svc, (f svc).name = svc.name
  svcType : ∀ svc, (f svc).svcType = svc.svcType
  dependencies : ∀ svc, (f svc).dependencies = svc.dependencies
  restartPolicy : ∀ svc, (f svc).restartPolicy = svc.restartPolicy
  maxRetries : ∀ svc, (f svc).maxRetries = svc.maxRetries

theorem Keeps.comp (hg : Keeps g) (hf : Keeps f) : Keeps (g ∘ f) where
  name _ := (hg.name _).trans (hf.name _)
  svcType _ := (hg.svcType _).trans (hf.svcType _)
  dependencies _ := (hg.dependencies _).trans (hf.dependencies _)
  restartPolicy _ := (hg.restartPolicy _).trans (hf.restartPolicy _)
  maxRetries _ := (hg.maxRetries _).trans (hf.maxRetries _)

theorem keeps_halt : Keeps (ServiceUnit.halt now) :=
  ⟨fun _ => rfl, fun _ => rfl, fun _ => rfl, fun _ => rfl, fun _ => rfl⟩

theorem keeps_countAttempt : Keeps ServiceUnit.countAttempt :=
  ⟨fun _ => rfl, fun _ => rfl, fun _ => rfl, fun _ => rfl, fun _ => rfl⟩

theorem keeps_launch : Keeps (ServiceUnit.launch now) := by
  constructor <;> intro svc <;> unfold ServiceUnit.launch <;> dsimp only <;> split <;> rfl

theorem keeps_giveUp : Keeps (ServiceUnit.giveUp now) := by
  constructor <;> intro svc <;> unfold ServiceUnit.giveUp <;> split <;> rfl

theorem state_launch (svc : ServiceUnit) :
    (svc.launch now).state = if svc.svcType = .oneshot then .stopped else .running := by
  unfold ServiceUnit.launch
  dsimp only
  split_ifs with h₁ h₂ h₂
  · rfl
  · exact absurd h₁ h₂
  · exact absurd h₂ h₁
  · rfl

theorem Keeps.requires_iff (hf : Keeps f) : (f svc).Requires name ↔ svc.Requires name := by
  rw [ServiceUnit.Requires, hf.dependencies, ServiceUnit.Requires]

theorem Keeps.satisfied_iff (hf : Keeps f) : Satisfied services (f svc) ↔ Satisfied services svc :=
  forall_congr' fun _ => by rw [hf.requires_iff]

theorem map_name_change (hf : Keeps f) :
    (change name f services).map ServiceUnit.name = services.map ServiceUnit.name :=
  map_modifyFirst hf.name services

theorem change_change (hf : Keeps f) :
    change name g (change name f services) = change name (g ∘ f) services := by
  induction services with
  | nil => rfl
  | cons t services ih =>
    unfold change at ih ⊢
    by_cases ht : t.name = name
    · simp [modifyFirst, ht, hf.name]
    · simp [modifyFirst, ht, ih]

theorem findService_change (hf : Keeps f) :
    findService (change name f services) name = (findService services name).map f :=
  find?_modifyFirst_self (fun t ht => by simpa [hf.name] using ht) services

theorem mem_of_findService (h : findService services name = some svc) :
    svc ∈ services ∧ svc.name = name :=
  ⟨List.mem_of_find?_eq_some h, by simpa using List.find?_some h⟩

section Distinct

variable (hnames : (services.map ServiceUnit.name).Nodup)

include hnames

theorem eq_of_name_eq {t : ServiceUnit} (hs : svc ∈ services) (ht : t ∈ services)
    (h : svc.name = t.name) : svc = t :=
  List.inj_on_of_nodup_map hnames hs ht h

theorem findService_of_mem (hs : svc ∈ services) : findService services svc.name = some svc := by
  cases hfind : findService services svc.name with
  | none =>
    rw [findService, List.find?_eq_none] at hfind
    exact absurd (hfind svc hs) (by simp)
  | some t =>
    obtain ⟨ht, hname⟩ := mem_of_findService hfind
    rw [eq_of_name_eq hnames ht hs hname]

theorem mem_change {t : ServiceUnit} :
    t ∈ change name f services ↔
      t ∈ services ∧ t.name ≠ name ∨ ∃ u ∈ services, u.name = name ∧ f u = t := by
  rw [change, modifyFirst_eq_map hnames, List.mem_map]
  constructor
  · rintro ⟨u, hu, rfl⟩
    by_cases hname : u.name = name
    · exact Or.inr ⟨u, hu, hname, (if_pos hname).symm⟩
    · rw [if_neg hname]
      exact Or.inl ⟨hu, hname⟩
  · rintro (⟨ht, hname⟩ | ⟨u, hu, hname, rfl⟩)
    · exact ⟨t, ht, if_neg hname⟩
    · exact ⟨u, hu, if_pos hname⟩

/-- What is running stays so, if the changed service does. -/
theorem isRunning_change (hf : Keeps f) (hs : svc ∈ services) (hname : svc.name = name)
    (hup : svc.state = .running → (f svc).state = .running) {other : String}
    (h : isRunning services other) : isRunning (change name f services) other := by
  obtain ⟨t, ht, hother, hstate⟩ := isRunning_iff.mp h
  rw [isRunning_iff]
  by_cases hsame : t.name = name
  · obtain rfl := eq_of_name_eq hnames ht hs (hsame.trans hname.symm)
    exact ⟨f t, (mem_change hnames).mpr (Or.inr ⟨t, ht, hname, rfl⟩), (hf.name t).trans hother,
      hup hstate⟩
  · exact ⟨t, (mem_change hnames).mpr (Or.inl ⟨ht, hsame⟩), hother, hstate⟩

/-- What the change does not bring up was running before. -/
theorem isRunning_of_change (hf : Keeps f) (hs : svc ∈ services) (hname : svc.name = name)
    (hdown : (f svc).state = .running → svc.state = .running) {other : String}
    (h : isRunning (change name f services) other) : isRunning services other := by
  obtain ⟨t, ht, hother, hstate⟩ := isRunning_iff.mp h
  rw [isRunning_iff]
  obtain ⟨ht, -⟩ | ⟨u, hu, hsame, rfl⟩ := (mem_change hnames).mp ht
  · exact ⟨t, ht, hother, hstate⟩
  · obtain rfl := eq_of_name_eq hnames hu hs (hsame.trans hname.symm)
    exact ⟨u, hu, (hf.name u).symm.trans hother, hdown hstate⟩

end Distinct

/-! ### Sound services -/

/-- The names are distinct; a running service is no oneshot and has what it requires, which is not
itself; and only services with the policy `Always` fail. -/
structure Sound (services : Services) : Prop where
  distinct : (services.map ServiceUnit.name).Nodup
  running : ∀ svc ∈ services, svc.state = .running →
    Satisfied services svc ∧ svc.svcType ≠ .oneshot ∧ ¬ svc.Requires svc.name
  failed : ∀ svc ∈ services, svc.state = .failed → svc.restartPolicy = .always

namespace Sound

/-- A change that does not take the service down. -/
theorem change (h : Sound services) (hf : Keeps f) (hs : svc ∈ services) (hname : svc.name = name)
    (hup : svc.state = .running → (f svc).state = .running)
    (hrun : (f svc).state = .running →
      Satisfied services svc ∧ svc.svcType ≠ .oneshot ∧ ¬ svc.Requires svc.name)
    (hfail : (f svc).state = .failed → svc.restartPolicy = .always) :
    Sound (change name f services) where
  distinct := by
    rw [map_name_change hf]
    exact h.distinct
  running t ht hstate := by
    have hlift : ∀ {u}, Satisfied services u → Satisfied (Service.change name f services) u :=
      fun hsat other hreq => isRunning_change h.distinct hf hs hname hup (hsat other hreq)
    obtain ⟨ht, -⟩ | ⟨u, hu, hsame, rfl⟩ := (mem_change h.distinct).mp ht
    · obtain ⟨hsat, hrest⟩ := h.running t ht hstate
      exact ⟨hlift hsat, hrest⟩
    · obtain rfl := eq_of_name_eq h.distinct hu hs (hsame.trans hname.symm)
      obtain ⟨hsat, htype, hself⟩ := hrun hstate
      rw [hf.satisfied_iff, hf.svcType, hf.requires_iff, hf.name]
      exact ⟨hlift hsat, htype, hself⟩
  failed t ht hstate := by
    obtain ⟨ht, -⟩ | ⟨u, hu, hsame, rfl⟩ := (mem_change h.distinct).mp ht
    · exact h.failed t ht hstate
    · obtain rfl := eq_of_name_eq h.distinct hu hs (hsame.trans hname.symm)
      rw [hf.restartPolicy]
      exact hfail hstate

/-- Stopping a service that no running one requires. -/
theorem halt (h : Sound services)
    (hfree : ∀ svc ∈ services, svc.state = .running → ¬ svc.Requires name) :
    Sound (Service.change name (ServiceUnit.halt now) services) where
  distinct := by
    rw [map_name_change keeps_halt]
    exact h.distinct
  running t ht hstate := by
    obtain ⟨ht, -⟩ | ⟨u, -, -, rfl⟩ := (mem_change h.distinct).mp ht
    · obtain ⟨hsat, hrest⟩ := h.running t ht hstate
      refine ⟨fun other hreq => ?_, hrest⟩
      obtain ⟨u, hu, hother, hup⟩ := isRunning_iff.mp (hsat other hreq)
      have hne : u.name ≠ name := fun hname => hfree t ht hstate (hname ▸ hother ▸ hreq)
      exact isRunning_iff.mpr ⟨u, (mem_change h.distinct).mpr (Or.inl ⟨hu, hne⟩), hother, hup⟩
    · cases hstate
  failed t ht hstate := by
    obtain ⟨ht, -⟩ | ⟨u, -, -, rfl⟩ := (mem_change h.distinct).mp ht
    · exact h.failed t ht hstate
    · cases hstate

/-- A service that is not running and can be started does not require itself. -/
theorem not_requires_self (h : Sound services) (hs : svc ∈ services) (hstate : svc.state ≠ .running)
    (hsat : Satisfied services svc) : ¬ svc.Requires svc.name := by
  intro hreq
  obtain ⟨t, ht, hname, hrun⟩ := isRunning_iff.mp (hsat _ hreq)
  obtain rfl := eq_of_name_eq h.distinct ht hs hname
  exact hstate hrun

end Sound

/-! ### The calls -/

theorem start_of_satisfied (hfind : findService services name = some svc)
    (hstate : svc.state ≠ .running) (hsat : Satisfied services svc) :
    start now name services = (.ok (), change name (ServiceUnit.launch now) services) := by
  simp [start, hfind, hstate, find?_unmet_eq_none_iff.mpr hsat]

theorem start_of_not_satisfied (hfind : findService services name = some svc)
    (hsat : ¬ Satisfied services svc) : ∃ e, start now name services = (.error e, services) := by
  rw [← find?_unmet_eq_none_iff, ← ne_eq, Option.ne_none_iff_exists'] at hsat
  obtain ⟨dep, hdep⟩ := hsat
  by_cases hstate : svc.state = .running
  · simp [start, hfind, hstate]
  · simp [start, hfind, hstate, hdep]

/-- A start fails without a change, or the service was not running and could be started. -/
theorem start_cases (now : Nat) (name : String) (services : Services) :
    (∃ e, start now name services = (.error e, services)) ∨
      ∃ svc, findService services name = some svc ∧ svc.state ≠ .running ∧
        Satisfied services svc := by
  cases hfind : findService services name with
  | none => exact Or.inl (by simp [start, hfind])
  | some svc =>
    by_cases hstate : svc.state = .running
    · exact Or.inl (by simp [start, hfind, hstate])
    · by_cases hsat : Satisfied services svc
      · exact Or.inr ⟨svc, rfl, hstate, hsat⟩
      · exact Or.inl (start_of_not_satisfied hfind hsat)

/-- A stop fails without a change, or the service was running. -/
theorem stop_cases (now : Nat) (name : String) (services : Services) :
    (∃ e, stop now name services = (.error e, services)) ∨
      ∃ svc, findService services name = some svc ∧ svc.state = .running ∧
        stop now name services = (.ok (), change name (ServiceUnit.halt now) services) := by
  cases hfind : findService services name with
  | none => exact Or.inl (by simp [stop, hfind])
  | some svc =>
    by_cases hstate : svc.state = .running
    · exact Or.inr ⟨svc, rfl, hstate, by simp [stop, hfind, hstate]⟩
    · exact Or.inl (by simp [stop, hfind, hstate])

/-- Counting an attempt leaves the states alone. -/
theorem satisfied_countAttempt_iff (h : Sound services) (hs : svc ∈ services)
    (hname : svc.name = name) :
    Satisfied (change name ServiceUnit.countAttempt services) svc.countAttempt ↔
      Satisfied services svc := by
  rw [keeps_countAttempt.satisfied_iff]
  exact ⟨fun hsat other hreq =>
      isRunning_of_change h.distinct keeps_countAttempt hs hname id (hsat other hreq),
    fun hsat other hreq =>
      isRunning_change h.distinct keeps_countAttempt hs hname id (hsat other hreq)⟩

theorem findService_countAttempt (h : Sound services) (hs : svc ∈ services)
    (hname : svc.name = name) :
    findService (change name ServiceUnit.countAttempt services) name = some svc.countAttempt := by
  rw [findService_change keeps_countAttempt, ← hname, findService_of_mem h.distinct hs]
  rfl

theorem retry_of_satisfied (h : Sound services) (hs : svc ∈ services) (hname : svc.name = name)
    (hstate : svc.state ≠ .running) (hsat : Satisfied services svc) :
    retry now name services =
      (.ok (), change name (ServiceUnit.launch now ∘ ServiceUnit.countAttempt) services) := by
  have hfind := findService_countAttempt h hs hname
  rw [retry, start_of_satisfied hfind hstate ((satisfied_countAttempt_iff h hs hname).mpr hsat),
    ← change_change keeps_countAttempt]

theorem retry_of_not_satisfied (now : Nat) (h : Sound services) (hs : svc ∈ services)
    (hname : svc.name = name) (hsat : ¬ Satisfied services svc) :
    ∃ e, retry now name services =
      (.error e, change name (ServiceUnit.giveUp now ∘ ServiceUnit.countAttempt) services) := by
  have hfind := findService_countAttempt h hs hname
  have hcount := mt (satisfied_countAttempt_iff h hs hname).mp hsat
  obtain ⟨e, he⟩ : ∃ e, start now name (change name ServiceUnit.countAttempt services) =
      (.error e, change name ServiceUnit.countAttempt services) :=
    start_of_not_satisfied hfind hcount
  exact ⟨e, by rw [retry, he, ← change_change keeps_countAttempt]⟩

theorem restartsSince_restarted (name other : String) (history : List Event) :
    restartsSince name (.restarted other :: history) =
      if other = name then restartsSince name history + 1 else restartsSince name history := by
  simp [restartsSince]

/-! ### Sessions -/

variable {s : Session} {history : List Event}

/-- The services are sound, and those that were restarted automatically have the policy `Always`. -/
structure Orderly (s : Session) : Prop where
  sound : Sound s.services
  policy : ∀ svc ∈ s.services, .restarted svc.name ∈ s.history → svc.restartPolicy = .always

theorem Orderly.supervised (h : Orderly s) (hwithin : WithinRetries s) : Supervised s := by
  refine ⟨hwithin, fun svc hs hpart => h.policy svc hs ?_, fun svc hs hstate => ?_⟩
  · exact List.mem_of_mem_filter (hpart.subset List.mem_cons_self)
  · exact (h.sound.running svc hs hstate).1

theorem withinRetries_change (hf : Keeps f) :
    WithinRetries ⟨change name f services, history⟩ ↔ WithinRetries ⟨services, history⟩ := by
  have hmap : (change name f services).map (fun svc => (svc.name, svc.maxRetries)) =
      services.map fun svc => (svc.name, svc.maxRetries) :=
    map_modifyFirst (fun svc => by rw [hf.name, hf.maxRetries]) services
  have hpairs : ∀ l : Services, WithinRetries ⟨l, history⟩ ↔
      ∀ p ∈ l.map (fun svc => (svc.name, svc.maxRetries)), restartsSince p.1 history ≤ p.2 := by
    intro l
    simp [WithinRetries]
  rw [hpairs, hpairs, hmap]

theorem orderly_change (hf : Keeps f) (hsound : Sound (change name f s.services))
    (hpolicy : ∀ svc ∈ s.services, .restarted svc.name ∈ history → svc.restartPolicy = .always) :
    Orderly ⟨change name f s.services, history⟩ where
  sound := hsound
  policy := by
    refine forall_mem_modifyFirst hpolicy fun svc hs => ?_
    rw [hf.name, hf.restartPolicy]
    exact hpolicy svc hs

/-- A start or a stop by a call does not add to the automatic restarts. -/
theorem WithinRetries.cons (h : WithinRetries s) {event : Event}
    (hevent : ∀ other, event ≠ .restarted other) :
    WithinRetries ⟨s.services, event :: s.history⟩ := by
  intro svc hs
  have hold := h svc hs
  simp only [restartsSince, hevent, ↓reduceIte]
  split
  · exact Nat.zero_le _
  · exact hold

theorem start_keeps (h : Orderly s) (hwithin : WithinRetries s) (now : Nat) (name : String) :
    Orderly (s.start now name) ∧ WithinRetries (s.start now name) := by
  obtain ⟨e, hstart⟩ | ⟨svc, hfind, hstate, hsat⟩ := start_cases now name s.services
  · rw [Session.start, hstart]
    exact ⟨h, hwithin⟩
  · obtain ⟨hs, hname⟩ := mem_of_findService hfind
    rw [Session.start, start_of_satisfied hfind hstate hsat]
    constructor
    · refine orderly_change keeps_launch ?_ fun t ht hmem => h.policy t ht (by simpa using hmem)
      refine h.sound.change keeps_launch hs hname (fun hrun => absurd hrun hstate) ?_ ?_
      · intro hrun
        refine ⟨hsat, fun htype => ?_, h.sound.not_requires_self hs hstate hsat⟩
        rw [state_launch, if_pos htype] at hrun
        cases hrun
      · intro hfail
        rw [state_launch] at hfail
        split at hfail <;> cases hfail
    · exact (withinRetries_change keeps_launch).mpr (hwithin.cons (by simp))

/-- A restart of a running service brings it up again: what it requires is running, and it is
none of it. -/
theorem restart_keeps (h : Orderly s) (hwithin : WithinRetries s) (now : Nat) (name : String) :
    Orderly (s.restart now name) ∧ WithinRetries (s.restart now name) := by
  obtain ⟨e, hstop⟩ | ⟨svc, hfind, hstate, hstop⟩ := stop_cases now name s.services
  · have hsame : s.stop now name = s := by
      rw [Session.stop, hstop]
      rfl
    rw [Session.restart, hsame]
    exact start_keeps h hwithin now name
  · obtain ⟨hs, rfl⟩ := mem_of_findService hfind
    obtain ⟨hsat, htype, hself⟩ := h.sound.running svc hs hstate
    -- Nothing but the service itself is down in between, and it does not require itself.
    have hfind' : findService (change svc.name (ServiceUnit.halt now) s.services) svc.name =
        some (svc.halt now) := by
      rw [findService_change keeps_halt, hfind]
      rfl
    have hsat' : Satisfied (change svc.name (ServiceUnit.halt now) s.services) (svc.halt now) := by
      intro other hreq
      rw [keeps_halt.requires_iff] at hreq
      obtain ⟨t, ht, hother, hrun⟩ := isRunning_iff.mp (hsat other hreq)
      have hne : t.name ≠ svc.name := fun hname => hself (hname ▸ hother ▸ hreq)
      exact isRunning_iff.mpr
        ⟨t, (mem_change h.sound.distinct).mpr (Or.inl ⟨ht, hne⟩), hother, hrun⟩
    have hstopped : s.stop now svc.name =
        ⟨change svc.name (ServiceUnit.halt now) s.services, .stopped svc.name :: s.history⟩ := by
      rw [Session.stop, hstop]
      rfl
    have hkeeps : Keeps (ServiceUnit.launch now ∘ ServiceUnit.halt now) :=
      keeps_launch.comp keeps_halt
    have hup : ((ServiceUnit.launch now ∘ ServiceUnit.halt now) svc).state = .running := by
      rw [Function.comp_apply, state_launch, keeps_halt.svcType, if_neg htype]
    rw [Session.restart, hstopped, Session.start,
      start_of_satisfied hfind' (by simp [ServiceUnit.halt, ServiceUnit.setState]) hsat',
      change_change keeps_halt]
    constructor
    · refine orderly_change hkeeps ?_ fun t ht hmem => h.policy t ht (by simpa using hmem)
      exact h.sound.change hkeeps hs rfl (fun _ => hup) (fun _ => ⟨hsat, htype, hself⟩)
        (fun hfail => by rw [hup] at hfail; cases hfail)
    · have hstop : WithinRetries ⟨s.services, .stopped svc.name :: s.history⟩ :=
        hwithin.cons (by simp)
      exact (withinRetries_change hkeeps).mpr (hstop.cons (by simp))

theorem stop_keeps (h : Orderly s) (hwithin : WithinRetries s) (now : Nat) (name : String)
    (hfree : isRunning s.services name →
      ∀ svc ∈ s.services, svc.state = .running → ¬ svc.Requires name) :
    Orderly (s.stop now name) ∧ WithinRetries (s.stop now name) := by
  obtain ⟨e, hstop⟩ | ⟨svc, hfind, hstate, hstop⟩ := stop_cases now name s.services
  · rw [Session.stop, hstop]
    exact ⟨h, hwithin⟩
  · obtain ⟨hs, hname⟩ := mem_of_findService hfind
    have hfree := hfree (isRunning_iff.mpr ⟨svc, hs, hname, hstate⟩)
    rw [Session.stop, hstop]
    constructor
    · exact orderly_change keeps_halt (h.sound.halt hfree)
        fun t ht hmem => h.policy t ht (by simpa using hmem)
    · exact (withinRetries_change keeps_halt).mpr (hwithin.cons (by simp))

/-- A service that a running one requires is stopped without it. -/
theorem stop_breaks (h : Orderly s) (now : Nat) {name : String} (hrun : isRunning s.services name)
    {user : ServiceUnit} (huser : user ∈ s.services) (hup : user.state = .running)
    (hreq : user.Requires name) : ¬ RequiresRunning (s.stop now name).services := by
  intro hafter
  obtain ⟨t, ht, rfl, hstate⟩ := isRunning_iff.mp hrun
  have hstop : stop now t.name s.services =
      (.ok (), change t.name (ServiceUnit.halt now) s.services) := by
    simp [stop, findService_of_mem h.sound.distinct ht, hstate]
  have hne : user.name ≠ t.name := fun hname =>
    (h.sound.running user huser hup).2.2 (hname ▸ hreq)
  rw [Session.stop, hstop] at hafter
  obtain ⟨u, hu, hname, hrunning⟩ := isRunning_iff.mp
    (hafter user ((mem_change h.sound.distinct).mpr (Or.inl ⟨huser, hne⟩)) hup _ hreq)
  obtain ⟨-, hother⟩ | ⟨v, -, -, rfl⟩ := (mem_change h.sound.distinct).mp hu
  · exact hother hname
  · cases hrunning

/-! ### Automatic restarts -/

theorem toRestart_spec {names : List String} (h : toRestart now services = .ok names) :
    names.Sublist (services.map ServiceUnit.name) ∧
      ∀ name ∈ names, ∃ svc ∈ services, svc.name = name ∧ svc.due now = .ok true := by
  induction services generalizing names with
  | nil =>
    cases h
    exact ⟨List.Sublist.refl _, fun _ hmem => absurd hmem List.not_mem_nil⟩
  | cons svc services ih =>
    obtain ⟨due, hdue, h⟩ := bind_eq_ok_iff.mp h
    obtain ⟨rest, hrest, h⟩ := bind_eq_ok_iff.mp h
    obtain ⟨hsub, hall⟩ := ih hrest
    have hlater : ∀ name ∈ rest, ∃ t ∈ svc :: services, t.name = name ∧ t.due now = .ok true := by
      intro name hmem
      obtain ⟨t, ht, hname, hdue⟩ := hall name hmem
      exact ⟨t, List.mem_cons_of_mem _ ht, hname, hdue⟩
    cases due with
    | true =>
      cases h
      refine ⟨hsub.cons_cons _, fun name hmem => ?_⟩
      obtain rfl | hmem := List.mem_cons.mp hmem
      · exact ⟨svc, List.mem_cons_self, rfl, hdue⟩
      · exact hlater name hmem
    | false =>
      cases h
      exact ⟨hsub.cons _, hlater⟩

/-- A service that is due is not running and has the policy `Always`. -/
theorem Sound.of_due (h : Sound services) (hs : svc ∈ services) (hdue : svc.due now = .ok true) :
    svc.state ≠ .running ∧ svc.restartPolicy = .always := by
  unfold ServiceUnit.due at hdue
  split_ifs at hdue with hidle hcount hshould
  · cases hdue
  · cases hdue
  · have hstate : svc.state = .failed ∨ svc.state = .stopped := by tauto
    refine ⟨by rcases hstate with hstate | hstate <;> simp [hstate], ?_⟩
    by_cases hfailed : svc.state = .failed
    · exact h.failed svc hs hfailed
    · unfold ServiceUnit.shouldRestart at hshould
      split at hshould
      · assumption
      · exact absurd (by simpa using hshould) hfailed
      · exact absurd (by simpa using hshould) hfailed
      · cases hshould
  · cases hdue

/-- The service can be restarted automatically. -/
def Idle (s : Session) (name : String) : Prop :=
  ∃ svc ∈ s.services, svc.name = name ∧ svc.state ≠ .running ∧ svc.restartPolicy = .always

/-- One round keeps the bound on the restarts exactly when the service has a retry left. -/
theorem retry_spec (now : Nat) (h : Orderly s) (hidle : Idle s name) :
    Returns (Session.retry now s name) fun s' =>
      Orderly s' ∧ (WithinRetries s' ↔ WithinRetries s ∧ HasRetry s name) ∧
        ∀ other, other ≠ name → Idle s other → Idle s' other := by
  obtain ⟨svc, hs, rfl, hstate, hpolicy⟩ := hidle
  have hothers : ∀ {f history} other, other ≠ svc.name → Idle s other →
      Idle ⟨change svc.name f s.services, history⟩ other := by
    rintro f history other hne ⟨t, ht, rfl, hrest⟩
    exact ⟨t, (mem_change h.sound.distinct).mpr (Or.inl ⟨ht, hne⟩), rfl, hrest⟩
  have hunique : ∀ t ∈ s.services, t.name = svc.name → t = svc := fun t ht hname =>
    eq_of_name_eq h.sound.distinct ht hs hname
  refine ⟨_, rfl, ?_⟩
  by_cases hsat : Satisfied s.services svc
  -- The start sets the count back, so only the history remembers this restart.
  · have hkeeps : Keeps (ServiceUnit.launch now ∘ ServiceUnit.countAttempt) :=
      keeps_launch.comp keeps_countAttempt
    have hresult : ((ServiceUnit.launch now ∘ ServiceUnit.countAttempt) svc).state =
        if svc.svcType = .oneshot then .stopped else .running := state_launch _
    rw [retry_of_satisfied h.sound hs rfl hstate hsat]
    refine ⟨orderly_change hkeeps ?_ ?_, ?_, hothers⟩
    · refine h.sound.change hkeeps hs rfl (fun hrun => absurd hrun hstate) ?_ (fun _ => hpolicy)
      intro hrun
      refine ⟨hsat, fun htype => ?_, h.sound.not_requires_self hs hstate hsat⟩
      rw [hresult, if_pos htype] at hrun
      cases hrun
    · intro t ht hmem
      obtain hname | hmem := List.mem_cons.mp hmem
      · rw [hunique t ht (Event.restarted.inj hname)]
        exact hpolicy
      · exact h.policy t ht hmem
    · refine (withinRetries_change hkeeps).trans ⟨fun hwithin => ⟨fun t ht => ?_, ?_⟩, ?_⟩
      · have hbound : restartsSince t.name (.restarted svc.name :: s.history) ≤ t.maxRetries :=
          hwithin t ht
        rw [restartsSince_restarted] at hbound
        split at hbound
        · exact Nat.le_of_succ_le hbound
        · exact hbound
      · intro t ht hname _
        have hbound : restartsSince t.name (.restarted svc.name :: s.history) ≤ t.maxRetries :=
          hwithin t ht
        rw [restartsSince_restarted, if_pos hname.symm, hname] at hbound
        exact hbound
      · rintro ⟨hwithin, hretry⟩ t ht
        have hgoal : restartsSince t.name (.restarted svc.name :: s.history) ≤ t.maxRetries := by
          rw [restartsSince_restarted]
          split
          · rename_i hname
            have hbound := hretry t ht hname.symm (hunique t ht hname.symm ▸ hsat)
            rw [hname] at hbound
            exact hbound
          · exact hwithin t ht
        exact hgoal
  · have hkeeps : Keeps (ServiceUnit.giveUp now ∘ ServiceUnit.countAttempt) :=
      keeps_giveUp.comp keeps_countAttempt
    obtain ⟨e, hretry⟩ := retry_of_not_satisfied now h.sound hs rfl hsat
    have hdown : ((ServiceUnit.giveUp now ∘ ServiceUnit.countAttempt) svc).state ≠ .running := by
      rw [Function.comp_apply, ServiceUnit.giveUp]
      split
      · simp [ServiceUnit.setState]
      · exact hstate
    rw [hretry]
    refine ⟨orderly_change hkeeps ?_ h.policy, ?_, hothers⟩
    · exact h.sound.change hkeeps hs rfl (fun hrun => absurd hrun hstate)
        (fun hrun => absurd hrun hdown) (fun _ => hpolicy)
    · refine (withinRetries_change hkeeps).trans ⟨fun hwithin => ⟨hwithin, ?_⟩, And.left⟩
      intro t ht hname hsat'
      exact absurd (hunique t ht hname ▸ hsat') hsat

/-- The loop keeps the bound exactly when every service has a retry left at its turn. -/
theorem retries_spec (now : Nat) (names : List String) (h : Orderly s) (hnodup : names.Nodup)
    (hidle : ∀ name ∈ names, Idle s name) :
    Returns (run (Session.retry now) s names) fun s' =>
      Orderly s' ∧
        (WithinRetries s' ↔ WithinRetries s ∧ Guarded (Session.retry now) HasRetry s names) := by
  -- The names are distinct, so a round leaves those that follow as they were.
  induction names generalizing s with
  | nil => exact ⟨s, rfl, h, (and_iff_left trivial).symm⟩
  | cons name names ih =>
    obtain ⟨hnew, hnodup⟩ := List.nodup_cons.mp hnodup
    rw [List.forall_mem_cons] at hidle
    obtain ⟨s₁, hretry, h₁, hwithin₁, hothers⟩ := retry_spec now h hidle.1
    obtain ⟨s', hrun, h', hwithin'⟩ := ih h₁ hnodup fun other hmem =>
      hothers other (fun heq => hnew (heq ▸ hmem)) (hidle.2 other hmem)
    refine ⟨s', by rw [run_cons, hretry, ok_bind, hrun], h', ?_⟩
    rw [hwithin', hwithin₁, and_assoc]
    refine and_congr_right fun _ => and_congr_right fun _ => ?_
    constructor
    · intro hguard t ht
      obtain rfl : s₁ = t := by simpa [hretry] using ht
      exact hguard
    · exact fun hguard => hguard s₁ hretry

theorem checkRestart_spec (h : Orderly s) {names : List String}
    (hnames : toRestart now s.services = .ok names) :
    Returns (s.checkRestart now) fun s' =>
      Orderly s' ∧
        (WithinRetries s' ↔ WithinRetries s ∧ Guarded (Session.retry now) HasRetry s names) := by
  obtain ⟨hsub, hdue⟩ := toRestart_spec hnames
  obtain ⟨s', hrun, hs'⟩ := retries_spec now names h (hsub.nodup h.sound.distinct)
    fun name hmem => by
      obtain ⟨svc, hs, hname, hdue⟩ := hdue name hmem
      obtain ⟨hstate, hpolicy⟩ := h.sound.of_due hs hdue
      exact ⟨svc, hs, hname, hstate, hpolicy⟩
  refine ⟨s', ?_, hs'⟩
  rw [Session.checkRestart, hnames, ok_bind]
  exact hrun

/-! ### Histories of calls -/

/-- Services as they are registered: the names are distinct, and none was ever started. -/
structure Registered where
  units : Services
  distinct : (units.map ServiceUnit.name).Nodup
  inactive : ∀ svc ∈ units, svc.state = .inactive ∧ svc.restartCount = 0

/-- The session before the first call. -/
def Registered.session (services : Registered) : Session where
  services := services.units
  history := []

theorem Registered.orderly (services : Registered) : Orderly services.session where
  sound :=
    { distinct := services.distinct
      running := fun svc hs hstate => by
        rw [(services.inactive svc hs).1] at hstate
        cases hstate
      failed := fun svc hs hstate => by
        rw [(services.inactive svc hs).1] at hstate
        cases hstate }
  policy svc _ hmem := absurd hmem List.not_mem_nil

theorem step_keeps {s s' : Session} {call : Nat × Call} (h : Orderly s) (hwithin : WithinRetries s)
    (hcareful : Careful s call) (hstep : step s call = .ok s') : Orderly s' ∧ WithinRetries s' := by
  match call with
  | (now, .start name) =>
    cases hstep
    exact start_keeps h hwithin now name
  | (now, .stop name) =>
    cases hstep
    exact stop_keeps h hwithin now name hcareful
  | (now, .restart name) =>
    cases hstep
    exact restart_keeps h hwithin now name
  | (now, .checkRestart) =>
    obtain ⟨names, hnames, -⟩ := bind_eq_ok_iff.mp hstep
    obtain ⟨h', hiff⟩ := (checkRestart_spec h hnames).elim hstep
    exact ⟨h', hiff.mpr ⟨hwithin, hcareful names hnames⟩⟩

theorem step_breaks {s : Session} {call : Nat × Call} (h : Orderly s)
    (hcareful : ¬ Careful s call) : ∃ s', step s call = .ok s' ∧ ¬ Supervised s' := by
  match call with
  | (now, .start name) => exact absurd trivial hcareful
  | (now, .restart name) => exact absurd trivial hcareful
  | (now, .stop name) =>
    rw [Careful] at hcareful
    push Not at hcareful
    obtain ⟨hrun, user, huser, hup, hreq⟩ := hcareful
    exact ⟨_, rfl, fun hsup => stop_breaks h now hrun huser hup hreq hsup.2.2⟩
  | (now, .checkRestart) =>
    rw [Careful] at hcareful
    push Not at hcareful
    obtain ⟨names, hnames, hguard⟩ := hcareful
    obtain ⟨s', hstep, -, hiff⟩ := checkRestart_spec h hnames
    exact ⟨s', hstep, fun hsup => hguard (hiff.mp hsup.1).2⟩

/-- **Service supervision.** Over every sequence of calls at any times, a service is restarted
automatically at most `max_retries` times after its last start, one that was stopped is only
restarted under the policy `Always`, and a running service has what it requires, exactly when no
service is stopped that a running one requires, and every service that is restarted automatically
has a retry left. -/
theorem supervised_iff_careful (services : Registered) (calls : List (Nat × Call)) :
    Always step Supervised services.session calls ↔
      Guarded step Careful services.session calls :=
  always_iff_guarded (fun s => Orderly s ∧ WithinRetries s) (fun _ h => h.1.supervised h.2)
    (fun _ _ _ h => step_keeps h.1 h.2) (fun _ _ h => step_breaks h.1)
    ⟨services.orderly, fun _ _ => Nat.zero_le _⟩ calls

/-- A daemon that is restarted always, and a service that requires it. -/
def daemonAndUser : Registered where
  units :=
    [{ name := "crond", svcType := .simple, restartPolicy := .always },
      { name := "user", svcType := .simple, dependencies := [⟨"crond", .requires⟩] }]
  distinct := by decide
  inactive := by decide

/-- The daemon is stopped and restarted six times, although it has five retries; and it is stopped
under the service that requires it. -/
theorem six_restarts :
    (∃ s, run step daemonAndUser.session
        ((0, .start "crond") :: (List.range 6).flatMap fun i =>
          [(500 * i, .stop "crond"), (500 * (i + 1), .checkRestart)]) = .ok s ∧
      ¬ WithinRetries s) ∧
    ∃ s, run step daemonAndUser.session
        [(0, .start "crond"), (0, .start "user"), (0, .stop "crond")] = .ok s ∧
      ¬ RequiresRunning s.services := by
  constructor
  · refine ⟨_, rfl, fun h => ?_⟩
    exact absurd (h _ List.mem_cons_self) (by decide)
  · refine ⟨_, rfl, fun h => ?_⟩
    have := h _ (List.mem_cons_of_mem _ List.mem_cons_self) (by decide) "crond"
      ⟨⟨"crond", .requires⟩, by decide, rfl, rfl⟩
    exact absurd this (by decide)

end MerlionKernel.Service
