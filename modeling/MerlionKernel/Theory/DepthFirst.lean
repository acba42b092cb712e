import Mathlib.Data.Finset.Card
import Mathlib.Logic.Relation
import MerlionKernel.Rust.Exec

/-!
# Depth-first search

A search goes on from a node to its successors and leaves the node when all of them have been
visited. A node that is met again while it is still being visited lies on a cycle; what is done
then is a parameter, and so is what is done at a node that has no list of successors.

The nodes that are entered and not finished are the ones on the way from the root to the node
being visited. So each of them leads to that node, and an edge back to one of them closes
a cycle. This is all that is needed for the order of the finished nodes: a successor comes first
unless it leads back.

## Main results

* `Explorer.explore_sound` — what a search that returns has finished, and in which order
* `Explorer.error_of_explore` — why a search ends without a result
* `Explorer.explore_returns_iff` — a search that refuses cycles returns exactly on the graphs
  without cycles and dead ends
-/

namespace MerlionKernel.Theory

open Rust Relation

universe u v

variable {V : Type u} {ε : Type v}

/-- The nodes entered so far, and those finished in the order in which they were. -/
structure Search (V : Type u) where
  entered : List V
  finished : List V

/-- A node that is entered and not finished. -/
def Search.Open (s : Search V) (x : V) : Prop := x ∈ s.entered ∧ x ∉ s.finished

/-- A graph to search: the successors of a node or the error for a node without any, the answer
at a node that is met again while it is visited, and the error when the depth is spent. -/
structure Explorer (V : Type u) (ε : Type v) where
  next : V → Except ε (List V)
  again : V → Except ε PUnit.{u + 1}
  spent : ε

namespace Explorer

variable (e : Explorer V ε)

/-- `w` is a successor of `v`. -/
def Edge (v w : V) : Prop := ∃ ws, e.next v = .ok ws ∧ w ∈ ws

/-- Some edges lead from `v` to `w`. -/
def Leads : V → V → Prop := ReflTransGen e.Edge

/-- Some edges, at least one, lead from `v` to `w`. -/
def LeadsOn : V → V → Prop := TransGen e.Edge

variable {e} {depth : ℕ} {v w x y : V} {vs roots : List V} {s s' t : Search V} {p q : V → Prop}

/-! ### What is known while a search goes on -/

variable (e) in
/-- The search has seen to `v`: it is finished, or it was met again where that is allowed. -/
def Met (s : Search V) (v : V) : Prop := v ∈ s.finished ∨ s.Open v ∧ e.again v = .ok ⟨⟩

variable (e) in
/-- What is known of the finished nodes. A successor of one of them comes before it, or it leads
back to it and was met again. -/
structure Sound (s : Search V) : Prop where
  nodup : s.finished.Nodup
  entered : ∀ x ∈ s.finished, x ∈ s.entered
  listed : ∀ x ∈ s.finished, ∃ ws, e.next x = .ok ws
  ordered : ∀ l x r, s.finished = l ++ x :: r → ∀ y, e.Edge x y →
    y ∈ l ∨ y ∈ s.entered ∧ e.Leads y x ∧ e.again y = .ok ⟨⟩

/-- The search went on from `s` to `s'`, and finished all that it entered on the way. -/
def Extends (p : V → Prop) (s s' : Search V) : Prop :=
  ∃ new, s'.finished = s.finished ++ new ∧ (∀ x, x ∈ s'.entered ↔ x ∈ s.entered ∨ x ∈ new) ∧
    ∀ x ∈ new, x ∉ s.entered ∧ p x

theorem Extends.refl (s : Search V) : Extends p s s := ⟨[], by simp⟩

theorem Extends.trans (h : Extends p s t) (h' : Extends p t s') : Extends p s s' := by
  obtain ⟨new, hfinished, hentered, hnew⟩ := h
  obtain ⟨new', hfinished', hentered', hnew'⟩ := h'
  refine ⟨new ++ new', ?_, fun x => ?_, fun x hx => ?_⟩
  · rw [hfinished', hfinished, List.append_assoc]
  · rw [hentered', hentered, List.mem_append, or_assoc]
  · rcases List.mem_append.mp hx with hx | hx
    · exact hnew x hx
    · exact ⟨fun hs => (hnew' x hx).1 ((hentered x).mpr (.inl hs)), (hnew' x hx).2⟩

theorem Extends.mono (h : Extends p s s') (hpq : ∀ x, p x → q x) : Extends q s s' := by
  obtain ⟨new, hfinished, hentered, hnew⟩ := h
  exact ⟨new, hfinished, hentered, fun x hx => ⟨(hnew x hx).1, hpq x (hnew x hx).2⟩⟩

theorem Extends.entered_subset (h : Extends p s s') (hx : x ∈ s.entered) : x ∈ s'.entered := by
  obtain ⟨new, -, hentered, -⟩ := h
  exact (hentered x).mpr (.inl hx)

theorem Extends.finished_subset (h : Extends p s s') (hx : x ∈ s.finished) : x ∈ s'.finished := by
  obtain ⟨new, hfinished, -, -⟩ := h
  exact hfinished ▸ List.mem_append_left new hx

/-- Where the search goes on, the same nodes stay open. -/
theorem Extends.open_iff (h : Extends p s s') : s'.Open x ↔ s.Open x := by
  obtain ⟨new, hfinished, hentered, hnew⟩ := h
  unfold Search.Open
  rw [hentered, hfinished, List.mem_append]
  constructor
  · rintro ⟨hx | hx, hopen⟩
    · exact ⟨hx, fun hs => hopen (.inl hs)⟩
    · exact absurd (.inr hx) hopen
  · rintro ⟨hx, hopen⟩
    refine ⟨.inl hx, ?_⟩
    rintro (hs | hs)
    · exact hopen hs
    · exact (hnew x hs).1 hx

theorem Met.extends (h : e.Met s v) (h' : Extends p s s') : e.Met s' v := by
  rcases h with h | ⟨hopen, hagain⟩
  · exact .inl (h'.finished_subset h)
  · exact .inr ⟨h'.open_iff.mpr hopen, hagain⟩

/-- Entering a node says nothing of those finished. -/
theorem Sound.enter (h : e.Sound s) (v : V) :
    e.Sound { s with entered := s.entered ++ [v] } where
  nodup := h.nodup
  entered x hx := List.mem_append_left _ (h.entered x hx)
  listed := h.listed
  ordered l x r hsplit y hedge := by
    rcases h.ordered l x r hsplit y hedge with hy | ⟨hy, hback⟩
    · exact .inl hy
    · exact .inr ⟨List.mem_append_left _ hy, hback⟩

/-- A node can be finished when the search has seen to all its successors, of which the open ones
lead back to it. -/
theorem Sound.finish (h : e.Sound s) (hv : s.Open v) {ws : List V}
    (hws : e.next v = .ok ws) (hmet : ∀ w ∈ ws, e.Met s w)
    (hback : ∀ x, s.Open x → e.Leads x v) :
    e.Sound { s with finished := s.finished ++ [v] } where
  nodup := List.nodup_append.mpr ⟨h.nodup, List.nodup_singleton v, by
    intro x hx y hy
    obtain rfl := List.mem_singleton.mp hy
    exact fun hxy => hv.2 (hxy ▸ hx)⟩
  entered x hx := by
    rcases List.mem_append.mp hx with hx | hx
    · exact h.entered x hx
    · exact List.mem_singleton.mp hx ▸ hv.1
  listed x hx := by
    rcases List.mem_append.mp hx with hx | hx
    · exact h.listed x hx
    · exact List.mem_singleton.mp hx ▸ ⟨ws, hws⟩
  ordered l x r hsplit y hedge := by
    rcases List.eq_nil_or_concat r with rfl | ⟨r', z, rfl⟩
    · -- the node just finished
      obtain ⟨hl, hx⟩ := List.append_inj' hsplit rfl
      obtain rfl : v = x := by simpa using hx
      obtain ⟨ws', hws', hy⟩ := hedge
      obtain rfl : ws = ws' := by simpa [hws] using hws'
      rcases hmet y hy with hy | ⟨hopen, hagain⟩
      · exact .inl (hl ▸ hy)
      · exact .inr ⟨hopen.1, hback y hopen, hagain⟩
    · have hsplit' : s.finished ++ [v] = (l ++ x :: r') ++ [z] := by simpa using hsplit
      exact h.ordered l x r' (List.append_inj' hsplit' rfl).1 y hedge

/-- The nodes that are open once `v` is entered lead to every successor of `v`. -/
theorem leadsOn_of_open_enter (hopen : ∀ x, s.Open x → e.LeadsOn x v)
    (hx : ({ s with entered := s.entered ++ [v] } : Search V).Open x) (hw : e.Edge v w) :
    e.LeadsOn x w := by
  obtain ⟨hx, hnot⟩ := hx
  rcases List.mem_append.mp hx with hx | hx
  · exact (hopen x ⟨hx, hnot⟩).tail hw
  · obtain rfl := List.mem_singleton.mp hx
    exact .single hw

theorem sound_nil : e.Sound ⟨[], []⟩ where
  nodup := List.nodup_nil
  entered := by simp
  listed := by simp
  ordered l x r h := by simp at h

theorem not_open_nil (x : V) : ¬ (⟨[], []⟩ : Search V).Open x := fun h => List.not_mem_nil h.1

/-! ### Orders -/

/-- Where every successor comes before its node, so does everything that the node leads to. -/
theorem mem_of_leadsOn {order : List V}
    (h : ∀ l x r, order = l ++ x :: r → ∀ y, e.Edge x y → y ∈ l) {l r : List V}
    (hsplit : order = l ++ x :: r) (hlead : e.LeadsOn x y) : y ∈ l := by
  induction hlead with
  | single hedge => exact h l x r hsplit _ hedge
  | tail _ hlast ih =>
    obtain ⟨l', r', rfl⟩ := List.append_of_mem ih
    rw [List.append_assoc, List.cons_append] at hsplit
    exact List.mem_append_left _ (h l' _ _ hsplit _ hlast)

/-- A list in which every successor comes before its node has no node on a cycle. -/
theorem not_leadsOn_self {order : List V} (hnodup : order.Nodup)
    (h : ∀ l x r, order = l ++ x :: r → ∀ y, e.Edge x y → y ∈ l) (hx : x ∈ order) :
    ¬ e.LeadsOn x x := by
  intro hcycle
  obtain ⟨l, r, rfl⟩ := List.append_of_mem hx
  have hmem := mem_of_leadsOn h rfl hcycle
  exact (List.nodup_append.mp hnodup).2.2 x hmem x List.mem_cons_self rfl

/-! ### The search -/

section

variable [DecidableEq V] (e)

/-- Visit `v` and what it leads to. -/
def visit : ℕ → V → Search V → Except ε (Search V)
  | 0, _, _ => .error e.spent
  | depth + 1, v, s =>
    if v ∈ s.entered then
      if v ∈ s.finished then .ok s
      else do
        let _ ← e.again v
        return s
    else do
      let ws ← e.next v
      let s' ← ws.foldlM (fun s w => visit depth w s) { s with entered := s.entered ++ [v] }
      return { s' with finished := s'.finished ++ [v] }

/-- Visit some nodes one after the other. -/
def visitAll (depth : ℕ) (vs : List V) (s : Search V) : Except ε (Search V) :=
  vs.foldlM (fun s v => e.visit depth v s) s

/-- Search from the roots. -/
def explore (depth : ℕ) (roots : List V) : Except ε (Search V) :=
  e.visitAll depth roots ⟨[], []⟩

end

variable [DecidableEq V]

/-- What every round of a loop that returns keeps holds after the loop. -/
theorem foldlM_keeps {α β : Type u} {f : α → β → Except ε α} {inv : α → Prop}
    (hf : ∀ a b a', inv a → f a b = .ok a' → inv a') {bs : List β} {a a' : α} (ha : inv a)
    (h : bs.foldlM f a = .ok a') : inv a' := by
  induction bs generalizing a with
  | nil => exact Except.ok.inj h ▸ ha
  | cons b bs ih =>
    rw [List.foldlM_cons, bind_eq_ok_iff] at h
    obtain ⟨t, hfirst, hrest⟩ := h
    exact ih (hf a b t ha hfirst) hrest

theorem visitAll_nil : e.visitAll depth [] s = .ok s := rfl

theorem visitAll_cons :
    e.visitAll depth (v :: vs) s = e.visit depth v s >>= e.visitAll depth vs :=
  List.foldlM_cons ..

theorem visit_of_finished (h : v ∈ s.entered) (hfinished : v ∈ s.finished) :
    e.visit (depth + 1) v s = .ok s := by
  rw [visit, if_pos h, if_pos hfinished]

theorem visit_of_open (h : s.Open v) :
    e.visit (depth + 1) v s = e.again v >>= fun _ => .ok s := by
  rw [visit, if_pos h.1, if_neg h.2]
  rfl

theorem visit_of_new (h : v ∉ s.entered) :
    e.visit (depth + 1) v s = e.next v >>= fun ws =>
      e.visitAll depth ws { s with entered := s.entered ++ [v] } >>= fun s' =>
        .ok { s' with finished := s'.finished ++ [v] } := by
  rw [visit, if_neg h]
  rfl

/-- The search leaves no node that it entered. -/
theorem entered_of_visit (h : e.visit depth v s = .ok s') (hx : x ∈ s.entered) :
    x ∈ s'.entered := by
  induction depth generalizing v s s' with
  | zero => cases h
  | succ depth ih =>
    by_cases hentered : v ∈ s.entered
    · rw [visit, if_pos hentered] at h
      split at h
      · exact Except.ok.inj h ▸ hx
      · obtain ⟨_, -, hok⟩ := bind_eq_ok_iff.mp h
        exact Except.ok.inj hok ▸ hx
    · rw [visit_of_new hentered, bind_eq_ok_iff] at h
      obtain ⟨ws, -, h⟩ := h
      obtain ⟨t, hall, hok⟩ := bind_eq_ok_iff.mp h
      obtain rfl := Except.ok.inj hok
      have ht : x ∈ t.entered := by
        unfold visitAll at hall
        apply foldlM_keeps (fun s w s' hs hvisit => ih hvisit hs) _ hall
        exact List.mem_append_left [v] hx
      exact ht

theorem entered_of_visitAll (h : e.visitAll depth vs s = .ok s') (hx : x ∈ s.entered) :
    x ∈ s'.entered := by
  unfold visitAll at h
  exact foldlM_keeps (fun _ _ _ hs hvisit => entered_of_visit hvisit hs) hx h

/-! ### Searches that return -/

variable (e) in
/-- What a visit that returns has done. -/
def VisitSound (depth : ℕ) : Prop :=
  ∀ v s s', e.Sound s → (∀ x, s.Open x → e.LeadsOn x v) → e.visit depth v s = .ok s' →
    e.Sound s' ∧ Extends (e.Leads v) s s' ∧ e.Met s' v

theorem visitAll_sound_of (hvisit : e.VisitSound depth) (hs : e.Sound s)
    (hopen : ∀ w ∈ vs, ∀ x, s.Open x → e.LeadsOn x w)
    (hp : ∀ w ∈ vs, ∀ x, e.Leads w x → p x) (h : e.visitAll depth vs s = .ok s') :
    e.Sound s' ∧ Extends p s s' ∧ ∀ w ∈ vs, e.Met s' w := by
  induction vs generalizing s with
  | nil =>
    obtain rfl : s = s' := by simpa [visitAll_nil] using h
    exact ⟨hs, .refl s, by simp⟩
  | cons v vs ih =>
    rw [visitAll_cons, bind_eq_ok_iff] at h
    obtain ⟨t, hfirst, hrest⟩ := h
    obtain ⟨ht, hext, hmet⟩ := hvisit v s t hs (hopen v List.mem_cons_self) hfirst
    obtain ⟨hs', hext', hmet'⟩ := ih ht
      (fun w hw x hx => hopen w (List.mem_cons_of_mem v hw) x (hext.open_iff.mp hx))
      (fun w hw => hp w (List.mem_cons_of_mem v hw)) hrest
    refine ⟨hs', (hext.mono (hp v List.mem_cons_self)).trans hext', fun w hw => ?_⟩
    rcases List.mem_cons.mp hw with rfl | hw
    · exact hmet.extends hext'
    · exact hmet' w hw

theorem visit_sound : e.VisitSound depth := by
  -- the induction is on the depth; the loop over the successors uses it at every one of them
  induction depth with
  | zero =>
    intro v s s' _ _ h
    cases h
  | succ depth ih =>
    intro v s s' hs hopen h
    by_cases hfinished : v ∈ s.finished
    · rw [visit_of_finished (hs.entered v hfinished) hfinished] at h
      obtain rfl : s = s' := by simpa using h
      exact ⟨hs, .refl s, .inl hfinished⟩
    by_cases hentered : v ∈ s.entered
    · rw [visit_of_open ⟨hentered, hfinished⟩, bind_eq_ok_iff] at h
      obtain ⟨_, hagain, hok⟩ := h
      obtain rfl : s = s' := by simpa using hok
      exact ⟨hs, .refl s, .inr ⟨⟨hentered, hfinished⟩, hagain⟩⟩
    rw [visit_of_new hentered, bind_eq_ok_iff] at h
    obtain ⟨ws, hws, h⟩ := h
    obtain ⟨t, hall, hok⟩ := bind_eq_ok_iff.mp h
    obtain rfl := Except.ok.inj hok
    have hedge : ∀ w ∈ ws, e.Edge v w := fun w hw => ⟨ws, hws, hw⟩
    obtain ⟨ht, hext, hmet⟩ := visitAll_sound_of ih (hs.enter v)
      (fun w hw x hx => leadsOn_of_open_enter hopen hx (hedge w hw))
      (fun w hw x hx => ReflTransGen.head (hedge w hw) hx) hall
    have hv : t.Open v :=
      hext.open_iff.mpr ⟨List.mem_append_right _ (List.mem_singleton_self v), hfinished⟩
    have hback : ∀ x, t.Open x → e.Leads x v := by
      intro x hx
      obtain ⟨hx, hnot⟩ := hext.open_iff.mp hx
      rcases List.mem_append.mp hx with hx | hx
      · exact (hopen x ⟨hx, hnot⟩).to_reflTransGen
      · exact List.mem_singleton.mp hx ▸ .refl
    refine ⟨ht.finish hv hws hmet hback, ?_, .inl (by simp)⟩
    obtain ⟨new, hnew, hin, hfresh⟩ := hext
    refine ⟨new ++ [v], ?_, fun x => ?_, fun x hx => ?_⟩
    · rw [← List.append_assoc, ← hnew]
    · rw [hin, List.mem_append, List.mem_append, or_assoc, or_comm (a := x ∈ [v])]
    · rcases List.mem_append.mp hx with hx | hx
      · exact ⟨fun h => (hfresh x hx).1 (List.mem_append_left _ h), (hfresh x hx).2⟩
      · obtain rfl := List.mem_singleton.mp hx
        exact ⟨hentered, .refl⟩

/-- A node that the search had not entered is the last one finished by its visit. -/
theorem finished_of_visit (h : e.visit depth v s = .ok s') (hentered : v ∉ s.entered) :
    ∃ l, s'.finished = l ++ [v] := by
  cases depth with
  | zero => cases h
  | succ depth =>
    rw [visit_of_new hentered, bind_eq_ok_iff] at h
    obtain ⟨ws, -, h⟩ := h
    obtain ⟨t, -, hok⟩ := bind_eq_ok_iff.mp h
    obtain rfl := Except.ok.inj hok
    exact ⟨t.finished, rfl⟩

/-- A search that returns has finished exactly the nodes that the roots lead to, each of them once.
A successor of a finished node comes before it, unless it leads back to it. -/
theorem explore_sound (h : e.explore depth roots = .ok s) :
    s.finished.Nodup ∧ (∀ x, x ∈ s.finished ↔ ∃ v ∈ roots, e.Leads v x) ∧
      (∀ x ∈ s.finished, ∃ ws, e.next x = .ok ws) ∧
      ∀ l x r, s.finished = l ++ x :: r → ∀ y, e.Edge x y →
        y ∈ l ∨ e.Leads y x ∧ e.again y = .ok ⟨⟩ := by
  obtain ⟨hs, hext, hmet⟩ := visitAll_sound_of visit_sound sound_nil
    (fun w _ x hx => absurd hx (not_open_nil x))
    (fun w hw x hx => (⟨w, hw, hx⟩ : ∃ v ∈ roots, e.Leads v x)) h
  have hclosed : ∀ x ∈ s.entered, x ∈ s.finished := by
    intro x hx
    by_contra hnot
    exact not_open_nil x (hext.open_iff.mp ⟨hx, hnot⟩)
  have hedge : ∀ x ∈ s.finished, ∀ y, e.Edge x y → y ∈ s.finished := by
    intro x hx y hy
    obtain ⟨l, r, hsplit⟩ := List.append_of_mem hx
    rcases hs.ordered l x r hsplit y hy with hy | ⟨hy, -⟩
    · exact hsplit ▸ List.mem_append_left _ hy
    · exact hclosed y hy
  refine ⟨hs.nodup, fun x => ⟨fun hx => ?_, ?_⟩, hs.listed, fun l x r hsplit y hy => ?_⟩
  · obtain ⟨new, hnew, -, hfrom⟩ := hext
    rw [List.nil_append] at hnew
    exact (hfrom x (hnew ▸ hx)).2
  · rintro ⟨v, hv, hlead⟩
    induction hlead with
    | refl =>
      rcases hmet v hv with hv | ⟨hopen, -⟩
      · exact hv
      · exact hclosed v hopen.1
    | tail _ hlast ih => exact hedge _ ih _ hlast
  · rcases hs.ordered l x r hsplit y hy with hy | ⟨-, hback⟩
    · exact .inl hy
    · exact .inr hback

/-! ### Searches that do not return -/

variable {err : ε}

variable (e) in
/-- Why a visit of `v` ends with an error: the search comes to a node without successors, it comes
back to a node on a cycle, or the depth is spent on the nodes that it had not entered. -/
def Ends (depth : ℕ) (err : ε) (s : Search V) (v : V) : Prop :=
  (∃ x, e.Leads v x ∧ e.next x = .error err) ∨
    (∃ x, e.Leads v x ∧ e.LeadsOn x x ∧ e.again x = .error err) ∨
    err = e.spent ∧ ∀ within : Finset V, (∀ x y, e.Edge x y → x ∈ within) →
      depth ≤ (within.filter (· ∉ s.entered)).card

/-- A loop over some nodes that ends with an error ends at one of them. -/
theorem exists_error_of_visitAll (hs : e.Sound s)
    (hopen : ∀ w ∈ vs, ∀ x, s.Open x → e.LeadsOn x w)
    (h : e.visitAll depth vs s = .error err) :
    ∃ w ∈ vs, ∃ t, e.Sound t ∧ (∀ x ∈ s.entered, x ∈ t.entered) ∧
      (∀ x, t.Open x → e.LeadsOn x w) ∧ e.visit depth w t = .error err := by
  induction vs generalizing s with
  | nil => cases h
  | cons v vs ih =>
    cases hfirst : e.visit depth v s with
    | error err' =>
      rw [visitAll_cons, hfirst, error_bind] at h
      obtain rfl := Except.error.inj h
      exact ⟨v, List.mem_cons_self, s, hs, fun x hx => hx, hopen v List.mem_cons_self, hfirst⟩
    | ok t =>
      rw [visitAll_cons, hfirst, ok_bind] at h
      obtain ⟨ht, hext, -⟩ := visit_sound v s t hs (hopen v List.mem_cons_self) hfirst
      obtain ⟨w, hw, t', ht', hsub, hopen', herr⟩ := ih ht
        (fun w hw x hx => hopen w (List.mem_cons_of_mem v hw) x (hext.open_iff.mp hx)) h
      exact ⟨w, List.mem_cons_of_mem v hw, t', ht', fun x hx => hsub x (hext.entered_subset hx),
        hopen', herr⟩

theorem ends_of_visit (hs : e.Sound s) (hopen : ∀ x, s.Open x → e.LeadsOn x v)
    (h : e.visit depth v s = .error err) : e.Ends depth err s v := by
  induction depth generalizing v s with
  | zero =>
    obtain rfl := Except.error.inj h
    exact .inr (.inr ⟨rfl, fun within _ => Nat.zero_le _⟩)
  | succ depth ih =>
    by_cases hfinished : v ∈ s.finished
    · rw [visit_of_finished (hs.entered v hfinished) hfinished] at h
      cases h
    by_cases hentered : v ∈ s.entered
    · rw [visit_of_open ⟨hentered, hfinished⟩] at h
      cases hagain : e.again v with
      | ok _ =>
        rw [hagain] at h
        cases h
      | error err' =>
        rw [hagain, error_bind] at h
        obtain rfl := Except.error.inj h
        exact .inr (.inl ⟨v, .refl, hopen v ⟨hentered, hfinished⟩, hagain⟩)
    rw [visit_of_new hentered] at h
    cases hws : e.next v with
    | error err' =>
      rw [hws, error_bind] at h
      obtain rfl := Except.error.inj h
      exact .inl ⟨v, .refl, hws⟩
    | ok ws =>
      rw [hws, ok_bind] at h
      cases hall : e.visitAll depth ws { s with entered := s.entered ++ [v] } with
      | ok t =>
        rw [hall] at h
        cases h
      | error err' =>
        rw [hall, error_bind] at h
        obtain rfl := Except.error.inj h
        obtain ⟨w, hw, t, ht, hsub, hopen', herr⟩ := exists_error_of_visitAll (hs.enter v)
          (fun w hw x hx => leadsOn_of_open_enter hopen hx ⟨ws, hws, hw⟩) hall
        have hedge : e.Edge v w := ⟨ws, hws, hw⟩
        rcases ih ht hopen' herr with ⟨x, hx, hdead⟩ | ⟨x, hx, hcycle⟩ | ⟨hspent, hcard⟩
        · exact .inl ⟨x, .head hedge hx, hdead⟩
        · exact .inr (.inl ⟨x, .head hedge hx, hcycle⟩)
        · refine .inr (.inr ⟨hspent, fun within hwithin => ?_⟩)
          -- `v` is counted here and no longer counted where its successor is visited
          refine Nat.succ_le_of_lt (Nat.lt_of_le_of_lt (hcard within hwithin) ?_)
          apply Finset.card_lt_card
          refine Finset.ssubset_iff_of_subset ?_ |>.mpr ⟨v, ?_, ?_⟩
          · intro x hx
            obtain ⟨hx, hnot⟩ := Finset.mem_filter.mp hx
            exact Finset.mem_filter.mpr
              ⟨hx, fun hs => hnot (hsub x (List.mem_append_left _ hs))⟩
          · exact Finset.mem_filter.mpr ⟨hwithin v w hedge, hentered⟩
          · intro hv
            exact (Finset.mem_filter.mp hv).2 (hsub v (List.mem_append_right _ (by simp)))

/-- A search with depth for every node that has successors ends with an error only where it comes
to a node without successors, or back to a node on a cycle. -/
theorem error_of_explore (within : Finset V) (hwithin : ∀ x y, e.Edge x y → x ∈ within)
    (hdepth : within.card < depth) (h : e.explore depth roots = .error err) :
    ∃ v ∈ roots, ∃ x, e.Leads v x ∧
      (e.next x = .error err ∨ e.LeadsOn x x ∧ e.again x = .error err) := by
  obtain ⟨v, hv, t, ht, -, hopen, herr⟩ := exists_error_of_visitAll sound_nil
    (fun w _ x hx => absurd hx (not_open_nil x)) h
  rcases ends_of_visit ht hopen herr with ⟨x, hx, hdead⟩ | ⟨x, hx, hcycle⟩ | ⟨-, hcard⟩
  · exact ⟨v, hv, x, hx, .inl hdead⟩
  · exact ⟨v, hv, x, hx, .inr hcycle⟩
  · have hle := hcard within hwithin
    have hfilter := Finset.card_filter_le within (· ∉ t.entered)
    omega

/-- A search that refuses cycles returns exactly when everything that the roots lead to has its
successors and lies on no cycle. -/
theorem explore_returns_iff (hagain : ∀ x, e.again x ≠ .ok ⟨⟩) (within : Finset V)
    (hwithin : ∀ x y, e.Edge x y → x ∈ within) (hdepth : within.card < depth) :
    (∃ s, e.explore depth roots = .ok s) ↔
      ∀ v ∈ roots, ∀ x, e.Leads v x → (∃ ws, e.next x = .ok ws) ∧ ¬ e.LeadsOn x x := by
  constructor
  · rintro ⟨s, hs⟩ v hv x hx
    obtain ⟨hnodup, hmem, hlisted, hordered⟩ := explore_sound hs
    have hx' := (hmem x).mpr ⟨v, hv, hx⟩
    refine ⟨hlisted x hx', not_leadsOn_self hnodup (fun l x r hsplit y hy => ?_) hx'⟩
    exact (hordered l x r hsplit y hy).resolve_right fun hback => hagain y hback.2
  · intro h
    cases hexplore : e.explore depth roots with
    | ok s => exact ⟨s, rfl⟩
    | error err =>
      obtain ⟨v, hv, x, hx, hdead | ⟨hcycle, -⟩⟩ := error_of_explore within hwithin hdepth hexplore
      · obtain ⟨ws, hws⟩ := (h v hv x hx).1
        rw [hws] at hdead
        cases hdead
      · exact absurd hcycle (h v hv x hx).2

end Explorer

end MerlionKernel.Theory
