import Mathlib.Data.List.Chain
import MerlionKernel.Build.Model
import MerlionKernel.Theory.DepthFirst

/-!
# Cycles and the build order

Both searches are the depth-first search of the dependencies between registered targets. The one of
`check_circular` refuses cycles, so it ends with one exactly if there is one. The one of
`build_order` passes over them, so without cycles every target comes after its dependencies.

While `check_circular` goes on, its path holds the targets in progress, each of them a dependency
of the one before. A target in progress that is met again is therefore on the path.
-/

namespace MerlionKernel.Build

open Rust Theory Relation

variable {ts : Targets} {a b n : String}

/-! ### The dependency graph -/

/-- A target of the name is registered. -/
def Registered (ts : Targets) (n : String) : Prop := n ∈ ts.names

instance : Decidable (Registered ts n) := inferInstanceAs (Decidable (n ∈ ts.names))

/-- Target `a` has a dependency on `b`. -/
def DependsOn (ts : Targets) (a b : String) : Prop :=
  ∃ t ∈ ts.list, t.name = a ∧ b ∈ t.dependencies

/-- A dependency on a registered target. -/
def Edge (ts : Targets) (a b : String) : Prop := DependsOn ts a b ∧ Registered ts b

theorem depsOf_eq_none_iff : ts.depsOf n = none ↔ ¬ Registered ts n := by
  rw [Targets.depsOf, Option.map_eq_none_iff, List.find?_eq_none, Registered, Targets.names,
    List.mem_map]
  simp

theorem dependsOn_iff {deps : List String} (h : ts.depsOf a = some deps) :
    DependsOn ts a b ↔ b ∈ deps := by
  obtain ⟨t, hfind, rfl⟩ := Option.map_eq_some_iff.mp h
  have hname : t.name = a := by simpa using List.find?_some hfind
  have hmem := List.mem_of_find?_eq_some hfind
  constructor
  · rintro ⟨t', ht', hname', hb⟩
    rwa [← List.inj_on_of_nodup_map ts.distinct ht' hmem (hname'.trans hname.symm)]
  · intro hb
    exact ⟨t, hmem, hname, hb⟩

theorem DependsOn.registered (h : DependsOn ts a b) : Registered ts a := by
  obtain ⟨t, ht, rfl, -⟩ := h
  exact List.mem_map_of_mem ht

/-- How a search ends without a result. -/
inductive Halt
  | cycle
  | spent

/-- The graph to be searched, with the answer at a target that is met again. -/
def graph (ts : Targets) (again : String → Except Halt PUnit) : Explorer String Halt where
  next n := .ok (((ts.depsOf n).getD []).filter (Registered ts))
  again := again
  spent := .spent

variable {again : String → Except Halt PUnit}

theorem graph_edge_iff : (graph ts again).Edge a b ↔ Edge ts a b := by
  have hnext : (graph ts again).Edge a b ↔
      b ∈ ((ts.depsOf a).getD []).filter (Registered ts) :=
    ⟨fun ⟨ws, hws, hb⟩ => Except.ok.inj hws ▸ hb, fun hb => ⟨_, rfl, hb⟩⟩
  rw [hnext, List.mem_filter, decide_eq_true_iff, Edge]
  refine and_congr_left fun _ => ?_
  cases hdeps : ts.depsOf a with
  | none => simp [mt DependsOn.registered (depsOf_eq_none_iff.mp hdeps)]
  | some deps => exact (dependsOn_iff hdeps).symm

theorem graph_edge_eq : (graph ts again).Edge = Edge ts := by
  funext a b
  exact propext graph_edge_iff

theorem mem_of_graph_edge (h : (graph ts again).Edge a b) : a ∈ ts.names.toFinset :=
  List.mem_toFinset.mpr (graph_edge_iff.mp h).1.registered

theorem card_names_lt (ts : Targets) : ts.names.toFinset.card < ts.list.length + 1 := by
  have hle := List.toFinset_card_le ts.names
  rw [Targets.names, List.length_map] at hle
  exact Nat.lt_succ_of_le hle

/-! ### The marks of a search -/

/-- The finished targets were entered. -/
def Nested (s : Search String) : Prop := ∀ x ∈ s.finished, x ∈ s.entered

variable {s s' : Search String} {depth : Nat} {state : Marks} {path : List String}

theorem Nested.enter (h : Nested s) (n : String) :
    Nested { s with entered := s.entered ++ [n] } :=
  fun x hx => List.mem_append_left _ (h x hx)

theorem Nested.finish (h : Nested s) (hn : n ∈ s.entered) :
    Nested { s with finished := s.finished ++ [n] } := by
  intro x hx
  rcases List.mem_append.mp hx with hx | hx
  · exact h x hx
  · exact List.mem_singleton.mp hx ▸ hn

/-- The search that refuses cycles. -/
abbrev strict (ts : Targets) : Explorer String Halt := graph ts fun _ => .error .cycle

end MerlionKernel.Build
