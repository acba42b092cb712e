import Mathlib.Logic.Function.Basic
import MerlionKernel.Rust.Find

/-!
# The build graph

The targets of `build_system.rs` and the two searches through their dependencies. Both keep a mark
for every target. `check_circular` also keeps the path from the first target to the one that is
visited, and leaves it as it is when it comes to a target that is on it. `build_order` passes over
such a target and lists the targets in the order in which they are done.

The vector of marks has one entry for each registered name, so it is modelled as a function from
names to marks, and a name is looked up in the registry.
-/

namespace MerlionKernel.Build

open Rust

/-- `MAX_TARGETS`. -/
def maxTargets : Nat := 128

/-- A target, with what the searches read of it. -/
structure BuildTarget where
  name : String
  dependencies : List String

/-- The registered targets. They have different names. -/
structure Targets where
  list : List BuildTarget
  distinct : (list.map BuildTarget.name).Nodup
  bounded : list.length ≤ maxTargets

namespace Targets

/-- The names of the targets in the order of their registration. -/
def names (ts : Targets) : List String := ts.list.map BuildTarget.name

/-- The dependencies of a registered name. -/
def depsOf (ts : Targets) (name : String) : Option (List String) :=
  (ts.list.find? (·.name = name)).map BuildTarget.dependencies

end Targets

/-- How far the search has come with a target. -/
inductive Mark
  | unvisited
  | inProgress
  | done
  deriving DecidableEq

abbrev Marks := String → Mark

/-- Whether a cycle was found, with the marks and the path. -/
abbrev Checked := Bool × Marks × List String

end MerlionKernel.Build
