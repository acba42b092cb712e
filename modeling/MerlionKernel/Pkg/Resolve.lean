import MerlionKernel.Pkg.Model
import MerlionKernel.Theory.DepthFirst

/-!
# The order of installation

`resolve_dependencies` keeps a table of three marks and a list of the packages done. It is the
depth-first search of the dependency graph that refuses cycles: a package is marked in progress
while it is entered and not finished, and done when it is finished. So the results about such
searches say which packages it lists and in which order, and on which registries it fails.
-/

namespace MerlionKernel.Pkg

open Rust Theory Relation

/-! ### The dependency graph -/

/-- A package of the name is in the registry. -/
def Registered (reg : List Package) (n : String) : Prop := ∃ p ∈ reg, p.name = n

/-- Package `a` has a dependency on `b`. -/
def DependsOn (reg : List Package) (a b : String) : Prop :=
  ∃ p ∈ reg, p.name = a ∧ ∃ d ∈ p.dependencies, d.name = b

/-- Some dependencies lead from `a` to `b`. -/
def Reachable (reg : List Package) : String → String → Prop := ReflTransGen (DependsOn reg)

/-- Some dependencies lead from the package back to itself. -/
def OnCycle (reg : List Package) (n : String) : Prop := TransGen (DependsOn reg) n n

variable {reg : List Package} {n m a b : String} {p : Package}

theorem mem_of_find (h : find reg n = some p) : p ∈ reg ∧ p.name = n := by
  have hname := List.find?_some h
  exact ⟨List.mem_of_find?_eq_some h, by simpa using hname⟩

theorem find_eq_none_iff : find reg n = none ↔ ¬ Registered reg n := by
  rw [find, List.find?_eq_none, Registered, not_exists]
  simp only [decide_eq_true_eq, not_and]

/-- Where the names are distinct, a package is found under its name. -/
theorem find_of_mem (hnames : (reg.map Package.name).Nodup) (hp : p ∈ reg) :
    find reg p.name = some p := by
  cases hfind : find reg p.name with
  | none => exact absurd ⟨p, hp, rfl⟩ (find_eq_none_iff.mp hfind)
  | some q =>
    obtain ⟨hq, hname⟩ := mem_of_find hfind
    rw [List.inj_on_of_nodup_map hnames hq hp hname]

/-- The graph as the search sees it. -/
def graph (reg : List Package) : Explorer String (Stop String) where
  next n := match adj reg n with
    | some deps => .ok deps
    | none => .error (.err ("unknown dependency '" ++ n ++ "'"))
  again n := .error (.err ("circular dependency detected involving '" ++ n ++ "'"))
  spent := .fault .diverge

theorem graph_next_of_some {deps : List String} (h : adj reg n = some deps) :
    (graph reg).next n = .ok deps := by
  simp only [graph, h]

theorem graph_next_of_none (h : adj reg n = none) :
    (graph reg).next n = .error (.err ("unknown dependency '" ++ n ++ "'")) := by
  simp only [graph, h]

theorem adj_eq_none_iff : adj reg n = none ↔ ¬ Registered reg n := by
  rw [adj, Option.map_eq_none_iff, find_eq_none_iff]

/-- The search stops for want of successors exactly at the names that are not registered. -/
theorem exists_graph_next_iff : (∃ deps, (graph reg).next n = .ok deps) ↔ Registered reg n := by
  cases hadj : adj reg n with
  | none => simp [graph_next_of_none hadj, adj_eq_none_iff.mp hadj]
  | some deps =>
    have hreg : Registered reg n := by
      by_contra hnot
      rw [adj_eq_none_iff.mpr hnot] at hadj
      cases hadj
    exact iff_of_true ⟨deps, graph_next_of_some hadj⟩ hreg

theorem graph_edge_iff (hnames : (reg.map Package.name).Nodup) :
    (graph reg).Edge a b ↔ DependsOn reg a b := by
  constructor
  · rintro ⟨deps, hdeps, hb⟩
    cases hadj : adj reg a with
    | none =>
      rw [graph_next_of_none hadj] at hdeps
      cases hdeps
    | some deps' =>
      rw [graph_next_of_some hadj] at hdeps
      obtain rfl := Except.ok.inj hdeps
      obtain ⟨p, hfind, rfl⟩ := Option.map_eq_some_iff.mp hadj
      obtain ⟨hp, hname⟩ := mem_of_find hfind
      exact ⟨p, hp, hname, List.mem_map.mp hb⟩
  · rintro ⟨p, hp, rfl, hd⟩
    refine ⟨p.dependencies.map Dependency.name, graph_next_of_some ?_, List.mem_map.mpr hd⟩
    rw [adj, find_of_mem hnames hp, Option.map_some]

theorem graph_edge_eq (hnames : (reg.map Package.name).Nodup) :
    (graph reg).Edge = DependsOn reg := by
  funext a b
  exact propext (graph_edge_iff hnames)

theorem graph_leads_eq (hnames : (reg.map Package.name).Nodup) :
    (graph reg).Leads = Reachable reg := by
  unfold Explorer.Leads Reachable
  rw [graph_edge_eq hnames]

theorem graph_leadsOn_self_iff (hnames : (reg.map Package.name).Nodup) :
    (graph reg).LeadsOn n n ↔ OnCycle reg n := by
  unfold Explorer.LeadsOn OnCycle
  rw [graph_edge_eq hnames]

/-- Only registered packages have dependencies. -/
theorem mem_of_graph_edge (h : (graph reg).Edge a b) : a ∈ (reg.map Package.name).toFinset := by
  obtain ⟨deps, hdeps, -⟩ := h
  obtain ⟨p, hp, hname⟩ := exists_graph_next_iff.mp ⟨deps, hdeps⟩
  exact List.mem_toFinset.mpr (hname ▸ List.mem_map_of_mem hp)

theorem card_names_lt (reg : List Package) :
    (reg.map Package.name).toFinset.card < reg.length + 1 := by
  have hle := List.toFinset_card_le (reg.map Package.name)
  rw [List.length_map] at hle
  omega

/-! ### The table of marks -/

/-- The mark of a name. -/
def markOf (state : Marks) (n : String) : Option Mark :=
  (state.find? fun e => e.1 = n).map Prod.snd

variable {state state' : Marks} {idx : Nat} {mark : Mark} {s s' : Search String}

theorem markOf_cons (e : String × Mark) (state : Marks) (n : String) :
    markOf (e :: state) n = if e.1 = n then some e.2 else markOf state n := by
  unfold markOf
  by_cases hn : e.1 = n
  · rw [List.find?_cons_of_pos (by simpa using hn), if_pos hn, Option.map_some]
  · rw [List.find?_cons_of_neg (by simpa using hn), if_neg hn]

theorem position_cons (e : String × Mark) (state : Marks) (n : String) :
    position (e :: state) n = if e.1 = n then some 0 else (position state n).map (· + 1) := by
  unfold position
  rw [List.findIdx?_cons]
  by_cases hn : e.1 = n
  · rw [if_pos (decide_eq_true hn), if_pos hn]
  · rw [if_neg (by simpa using hn), if_neg hn]

theorem position_eq_none_iff : position state n = none ↔ markOf state n = none := by
  rw [position, markOf, List.findIdx?_eq_none_iff, Option.map_eq_none_iff, List.find?_eq_none]
  simp

/-- What is read and written where a name stands. -/
theorem setMark_position (h : position state n = some idx) (mark : Mark) :
    ∃ old state', index state idx = .ok (n, old) ∧ markOf state n = some old ∧
      setMark state idx mark = .ok state' ∧
      ∀ k, markOf state' k = if n = k then some mark else markOf state k := by
  induction state generalizing idx with
  | nil => cases h
  | cons e state ih =>
    rw [position_cons] at h
    by_cases hn : e.1 = n
    · subst hn
      obtain rfl : 0 = idx := by simpa using h
      refine ⟨e.2, (e.1, mark) :: state, rfl, by rw [markOf_cons, if_pos rfl], rfl, fun k => ?_⟩
      rw [markOf_cons, markOf_cons]
      by_cases hk : e.1 = k
      · rw [if_pos hk, if_pos hk]
      · rw [if_neg hk, if_neg hk, if_neg hk]
    · rw [if_neg hn] at h
      obtain ⟨i, hi, rfl⟩ := Option.map_eq_some_iff.mp h
      obtain ⟨old, state', hindex, hold, hset, hmarks⟩ := ih hi
      have hindex' : index (e :: state) (i + 1) = .ok (n, old) := hindex
      refine ⟨old, e :: state', hindex', by rw [markOf_cons, if_neg hn, hold], ?_, fun k => ?_⟩
      · rw [setMark, hindex, ok_bind] at hset
        obtain ⟨hlt, rfl⟩ := checked_eq_ok_iff.mp hset
        rw [setMark, hindex', ok_bind, store_eq_ok _ (Nat.succ_lt_succ hlt)]
        rfl
      · rw [markOf_cons, markOf_cons, hmarks]
        by_cases hk : e.1 = k
        · rw [if_pos hk, if_pos hk, if_neg fun hnk => hn (hk.trans hnk.symm)]
        · rw [if_neg hk, if_neg hk]

/-! ### The search behind the marks -/

/-- The mark of a node in a state of the search. -/
def markIn (s : Search String) (n : String) : Mark :=
  if n ∈ s.finished then .done else if n ∈ s.entered then .inProgress else .unvisited

/-- The table shows a state of the search, which enters only registered packages and finishes those
that it entered. -/
structure Shows (reg : List Package) (state : Marks) (s : Search String) : Prop where
  marks : ∀ n, markOf state n = (adj reg n).map fun _ => markIn s n
  entered : ∀ n ∈ s.entered, adj reg n ≠ none
  finished : ∀ n ∈ s.finished, n ∈ s.entered

theorem shows_start (reg : List Package) :
    Shows reg (reg.map fun p => (p.name, Mark.unvisited)) ⟨[], []⟩ where
  marks n := by
    have hmark : markIn ⟨[], []⟩ n = .unvisited := by simp [markIn]
    rw [hmark, adj, find, markOf, List.find?_map, Option.map_map, Option.map_map]
    rfl
  entered := by simp
  finished := by simp

/-- Marking a package as in progress is entering it. -/
theorem Shows.enter (h : Shows reg state s) (hreg : adj reg n ≠ none) (hfinished : n ∉ s.finished)
    (hmarks : ∀ k, markOf state' k = if n = k then some .inProgress else markOf state k) :
    Shows reg state' { s with entered := s.entered ++ [n] } where
  marks k := by
    rw [hmarks]
    by_cases hk : n = k
    · subst hk
      obtain ⟨deps, hdeps⟩ := Option.ne_none_iff_exists'.mp hreg
      simp [hdeps, markIn, hfinished]
    · rw [if_neg hk, h.marks]
      simp [markIn, Ne.symm hk]
  entered k hk := by
    rcases List.mem_append.mp hk with hk | hk
    · exact h.entered k hk
    · exact List.mem_singleton.mp hk ▸ hreg
  finished k hk := List.mem_append_left _ (h.finished k hk)

/-- Marking a package as done is finishing it. -/
theorem Shows.finish (h : Shows reg state s) (hentered : n ∈ s.entered)
    (hmarks : ∀ k, markOf state' k = if n = k then some .done else markOf state k) :
    Shows reg state' { s with finished := s.finished ++ [n] } where
  marks k := by
    rw [hmarks]
    by_cases hk : n = k
    · subst hk
      obtain ⟨deps, hdeps⟩ := Option.ne_none_iff_exists'.mp (h.entered n hentered)
      simp [hdeps, markIn]
    · rw [if_neg hk, h.marks]
      simp [markIn, Ne.symm hk]
  entered := h.entered
  finished k hk := by
    rcases List.mem_append.mp hk with hk | hk
    · exact h.finished k hk
    · exact List.mem_singleton.mp hk ▸ hentered

/-- A call of the code and one of the search end alike. -/
inductive Simulates (reg : List Package) :
    Attempt String (Marks × List String) → Except (Stop String) (Search String) → Prop
  | ok {state : Marks} {s : Search String} (h : Shows reg state s) :
    Simulates reg (.ok (state, s.finished)) (.ok s)
  | error (e : Stop String) : Simulates reg (.error e) (.error e)

theorem Simulates.bind {m : Attempt String (Marks × List String)}
    {m' : Except (Stop String) (Search String)}
    {f : Marks × List String → Attempt String (Marks × List String)}
    {g : Search String → Except (Stop String) (Search String)} (h : Simulates reg m m')
    (hf : ∀ state s, m' = .ok s → Shows reg state s → Simulates reg (f (state, s.finished)) (g s)) :
    Simulates reg (m >>= f) (m' >>= g) := by
  cases h with
  | ok hshows => exact hf _ _ rfl hshows
  | error e => exact .error e

/-- The end of a visit finishes its node. -/
theorem close_simulates (h : Shows reg state s) (hentered : n ∈ s.entered) :
    Simulates reg (close n state s.finished)
      (.ok { s with finished := s.finished ++ [n] }) := by
  cases hpos : position state n with
  | none =>
    rw [position_eq_none_iff, h.marks, Option.map_eq_none_iff] at hpos
    exact absurd hpos (h.entered n hentered)
  | some idx =>
    obtain ⟨old, state', -, -, hset, hmarks⟩ := setMark_position hpos .done
    rw [close, hpos]
    dsimp only
    rw [ok_bind, hset, orFault_ok, ok_bind]
    exact .ok (h.finish hentered hmarks)

theorem dfs_simulates (reg : List Package) (depth : ℕ) (node : String) (h : Shows reg state s) :
    Simulates reg (dfs reg depth node (state, s.finished)) ((graph reg).visit depth node s) := by
  induction depth generalizing node state s with
  | zero => exact .error _
  | succ depth ih =>
    have hall : ∀ (deps : List String) (state : Marks) (s : Search String), Shows reg state s →
        Simulates reg (deps.foldlM (fun s dep => dfs reg depth dep s) (state, s.finished))
          ((graph reg).visitAll depth deps s) := by
      intro deps
      induction deps with
      | nil => exact fun state s h => .ok h
      | cons dep deps ihdeps =>
        intro state s h
        rw [List.foldlM_cons, Explorer.visitAll_cons]
        exact (ih dep h).bind fun state s _ => ihdeps state s
    rw [dfs]
    cases hpos : position state node with
    | none =>
      -- an unknown name was never entered, so the search asks for its successors too
      rw [position_eq_none_iff, h.marks, Option.map_eq_none_iff] at hpos
      rw [Explorer.visit_of_new fun hn => h.entered node hn hpos, graph_next_of_none hpos,
        error_bind]
      exact .error _
    | some idx =>
      obtain ⟨old, state', hindex, hold, hset, hmarks⟩ := setMark_position hpos .inProgress
      rw [h.marks] at hold
      obtain ⟨deps, hdeps, hmark⟩ := Option.map_eq_some_iff.mp hold
      dsimp only
      rw [hindex, orFault_ok, ok_bind, ← hmark]
      have hreg : adj reg node ≠ none := by simp [hdeps]
      by_cases hfinished : node ∈ s.finished
      · rw [Explorer.visit_of_finished (h.finished node hfinished) hfinished, markIn,
          if_pos hfinished]
        exact .ok h
      by_cases hentered : node ∈ s.entered
      · rw [Explorer.visit_of_open ⟨hentered, hfinished⟩, markIn, if_neg hfinished,
          if_pos hentered]
        exact .error _
      rw [Explorer.visit_of_new hentered, markIn, if_neg hfinished, if_neg hentered,
        graph_next_of_some hdeps, ok_bind]
      dsimp only
      rw [hset, orFault_ok, ok_bind, hdeps, Option.getD_some]
      apply (hall deps state' _ (h.enter hreg hfinished hmarks)).bind
      intro state s hs h
      exact close_simulates h (Explorer.entered_of_visitAll hs (List.mem_append_right _ (by simp)))

/-! ### Resolved packages -/

theorem explore_singleton (depth : ℕ) (name : String) :
    (graph reg).explore depth [name] = (graph reg).visit depth name ⟨[], []⟩ := by
  rw [Explorer.explore, Explorer.visitAll_cons]
  exact bind_pure _

/-- The order is that of the search. -/
theorem resolveDependencies_eq (reg : List Package) (name : String) (hreg : Registered reg name) :
    resolveDependencies reg name =
      ((graph reg).explore (reg.length + 1) [name]).map Search.finished := by
  have hadj : adj reg name ≠ none := fun h => adj_eq_none_iff.mp h hreg
  have hsim := dfs_simulates reg (reg.length + 1) name (shows_start reg)
  rw [resolveDependencies, if_neg hadj, explore_singleton]
  dsimp only at hsim ⊢
  generalize dfs reg (reg.length + 1) name _ = m at hsim ⊢
  generalize (graph reg).visit (reg.length + 1) name _ = m' at hsim ⊢
  cases hsim with
  | ok h => rfl
  | error e => rfl

theorem explore_of_resolveDependencies {name : String} {order : List String}
    (h : resolveDependencies reg name = .ok order) :
    ∃ s, (graph reg).explore (reg.length + 1) [name] = .ok s ∧ s.finished = order := by
  by_cases hreg : Registered reg name
  · rw [resolveDependencies_eq reg name hreg] at h
    cases hexplore : (graph reg).explore (reg.length + 1) [name] with
    | error e =>
      rw [hexplore] at h
      cases h
    | ok s =>
      rw [hexplore] at h
      exact ⟨s, rfl, Except.ok.inj h⟩
  · rw [resolveDependencies, if_pos (adj_eq_none_iff.mpr hreg)] at h
    cases h

theorem resolveDependencies_ok_iff (hnames : (reg.map Package.name).Nodup) (name : String) :
    (∃ order, resolveDependencies reg name = .ok order) ↔
      ∀ n, Reachable reg name n → Registered reg n ∧ ¬ OnCycle reg n := by
  have hsearch : (∃ s, (graph reg).explore (reg.length + 1) [name] = .ok s) ↔
      ∀ v ∈ [name], ∀ x, (graph reg).Leads v x →
        (∃ deps, (graph reg).next x = .ok deps) ∧ ¬ (graph reg).LeadsOn x x := by
    apply Explorer.explore_returns_iff _ _ (fun _ _ h => mem_of_graph_edge h) (card_names_lt reg)
    intro x h
    cases h
  simp only [List.mem_singleton, forall_eq, exists_graph_next_iff, graph_leads_eq hnames,
    graph_leadsOn_self_iff hnames] at hsearch
  rw [← hsearch]
  constructor
  · rintro ⟨order, horder⟩
    obtain ⟨s, hs, -⟩ := explore_of_resolveDependencies horder
    exact ⟨s, hs⟩
  · rintro ⟨s, hs⟩
    have hreg : Registered reg name := (hsearch.mp ⟨s, hs⟩ name .refl).1
    exact ⟨s.finished, by rw [resolveDependencies_eq reg name hreg, hs]; rfl⟩

/-- What is resolved: the reachable packages. -/
theorem mem_order_iff (hnames : (reg.map Package.name).Nodup) {name : String} {order : List String}
    (h : resolveDependencies reg name = .ok order) (n : String) :
    n ∈ order ↔ Reachable reg name n := by
  obtain ⟨s, hs, rfl⟩ := explore_of_resolveDependencies h
  rw [(Explorer.explore_sound hs).2.1 n, graph_leads_eq hnames]
  simp

/-- Every package comes after its dependencies. -/
theorem order_of_resolveDependencies (hnames : (reg.map Package.name).Nodup) {name : String}
    {order : List String} (h : resolveDependencies reg name = .ok order) (l : List String)
    (n : String) (r : List String) (hsplit : order = l ++ n :: r) (dep : String)
    (hdep : DependsOn reg n dep) : dep ∈ l := by
  obtain ⟨s, hs, rfl⟩ := explore_of_resolveDependencies h
  rcases (Explorer.explore_sound hs).2.2.2 l n r hsplit dep ((graph_edge_iff hnames).mpr hdep)
    with hmem | ⟨-, hagain⟩
  · exact hmem
  · cases hagain

/-- The requested package is the last one. -/
theorem exists_order_eq {name : String} {order : List String}
    (h : resolveDependencies reg name = .ok order) : ∃ l, order = l ++ [name] := by
  obtain ⟨s, hs, rfl⟩ := explore_of_resolveDependencies h
  rw [explore_singleton] at hs
  exact Explorer.finished_of_visit hs (by simp)

/-- A package that is not resolved is refused with a message. -/
theorem resolveDependencies_ends (reg : List Package) (name : String) :
    (∃ order, resolveDependencies reg name = .ok order) ∨
      ∃ message, resolveDependencies reg name = .error (.err message) := by
  by_cases hreg : Registered reg name
  · rw [resolveDependencies_eq reg name hreg]
    cases hexplore : (graph reg).explore (reg.length + 1) [name] with
    | ok s => exact .inl ⟨s.finished, rfl⟩
    | error e =>
      obtain ⟨v, -, n, -, hdead | ⟨-, hagain⟩⟩ := Explorer.error_of_explore _
        (fun _ _ h => mem_of_graph_edge h) (card_names_lt reg) hexplore
      · cases hadj : adj reg n with
        | none =>
          rw [graph_next_of_none hadj] at hdead
          obtain rfl := Except.error.inj hdead
          exact .inr ⟨_, rfl⟩
        | some deps =>
          rw [graph_next_of_some hadj] at hdead
          cases hdead
      · obtain rfl := Except.error.inj hagain
        exact .inr ⟨_, rfl⟩
  · exact .inr ⟨_, if_pos (adj_eq_none_iff.mpr hreg)⟩

/-- Every registry with distinct names either resolves a package or refuses it with a message. It
resolves the package exactly when everything that it depends on is registered and none of it lies
on a cycle. The order then lists the reachable packages, each once and after all its dependencies,
with the requested one at the end. -/
theorem resolveDependencies_resolves (reg : List Package)
    (hnames : (reg.map Package.name).Nodup) (name : String) :
    ((∃ order, resolveDependencies reg name = .ok order) ∨
      ∃ message, resolveDependencies reg name = .error (.err message)) ∧
    ((∃ order, resolveDependencies reg name = .ok order) ↔
      (∀ n, Reachable reg name n → Registered reg n) ∧
        ¬ ∃ n, Reachable reg name n ∧ OnCycle reg n) ∧
    ∀ order, resolveDependencies reg name = .ok order →
      order.Nodup ∧ (∀ n, n ∈ order ↔ Reachable reg name n) ∧
        (∀ l n r, order = l ++ n :: r → ∀ dep, DependsOn reg n dep → dep ∈ l) ∧
        ∃ l, order = l ++ [name] := by
  refine ⟨resolveDependencies_ends reg name, ?_, fun order horder => ?_⟩
  · rw [resolveDependencies_ok_iff hnames]
    constructor
    · intro h
      refine ⟨fun n hn => (h n hn).1, ?_⟩
      rintro ⟨n, hn, hcycle⟩
      exact (h n hn).2 hcycle
    · rintro ⟨hreg, hcycle⟩ n hn
      exact ⟨hreg n hn, fun h => hcycle ⟨n, hn, h⟩⟩
  · refine ⟨?_, mem_order_iff hnames horder, order_of_resolveDependencies hnames horder,
      exists_order_eq horder⟩
    obtain ⟨s, hs, rfl⟩ := explore_of_resolveDependencies horder
    exact (Explorer.explore_sound hs).1

/-- The secure shell of the built-in packages. -/
theorem resolves_ssh :
    (init.packages.map Package.name).Nodup ∧
    ∃ order, resolveDependencies init.packages "ssh" = .ok order ∧
      order = ["kernel", "memory", "tcp-ip", "tls", "ssh"] ∧ order.Nodup ∧
      ∀ n, n ∈ order ↔ Reachable init.packages "ssh" n := by
  have horder : resolveDependencies init.packages "ssh" =
      .ok ["kernel", "memory", "tcp-ip", "tls", "ssh"] := by decide +kernel
  obtain ⟨hnodup, hmem, -⟩ :=
    (resolveDependencies_resolves init.packages init.distinct "ssh").2.2 _ horder
  exact ⟨init.distinct, _, horder, rfl, hnodup, hmem⟩

end MerlionKernel.Pkg
