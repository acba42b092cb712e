import MerlionKernel.Rust.Fallible
import MerlionKernel.Rust.Find

/-!
# The package registry

The registry of `pkg_registry.rs`: the packages that can be installed, their versions and their
dependencies, each with optional version bounds. Descriptions, sizes, categories, files and install
ticks are written and listed and never consulted by the operations, so they are left out.

The names in a `Registry` are distinct and there are at most 128 of them: `register_package` ignores
a package that is there or does not fit, and no other operation adds or renames one.
-/

namespace MerlionKernel.Pkg

open Rust

/-- `MAX_PACKAGES`. -/
def maxPackages : Nat := 128

/-! ### Versions and dependencies -/

/-- A semantic version. -/
structure Version where
  major : UInt32
  minor : UInt32
  patch : UInt32

/-- A dependency on another package, with optional version bounds. -/
structure Dependency where
  name : String
  minVersion : Option Version := none
  maxVersion : Option Version := none

/-- A package and its state. -/
structure Package where
  name : String
  version : Version
  dependencies : List Dependency
  installed : Bool := false

/-- The first package with the name. -/
def find (reg : List Package) (name : String) : Option Package := reg.find? fun p => p.name = name

/-! ### Resolving dependencies -/

/-- The states of the search: not visited, in progress, done. -/
inductive Mark
  | unvisited
  | inProgress
  | done

/-- The names of the packages with their marks. -/
abbrev Marks := List (String × Mark)

/-- The names of the dependencies of a package. -/
def adj (reg : List Package) (n : String) : Option (List String) :=
  (find reg n).map fun p => p.dependencies.map Dependency.name

/-- Where a name stands. -/
def position (state : Marks) (node : String) : Option Nat := state.findIdx? fun e => e.1 = node

/-- `state[idx].1 = mark`. -/
def setMark (state : Marks) (idx : Nat) (mark : Mark) : Exec Marks := do
  let entry ← index state idx
  store state idx (entry.1, mark)

/-- The end of a visit: the node is done and comes next in the order. -/
def close (node : String) (state : Marks) (order : List String) :
    Attempt String (Marks × List String) := do
  let idx ← match position state node with
    | some idx => .ok idx
    | none => .error (.fault .unwrap)
  let state ← orFault (setMark state idx .done)
  return (state, order ++ [node])

/-- Visit a node and its dependencies. -/
def dfs (reg : List Package) :
    Nat → String → Marks × List String → Attempt String (Marks × List String)
  | 0, _, _ => .error (.fault .diverge)
  | depth + 1, node, (state, order) =>
    match position state node with
    | none => fail ("unknown dependency '" ++ node ++ "'")
    | some idx => do
      let entry ← orFault (index state idx)
      match entry.2 with
      | .done => return (state, order)
      | .inProgress => fail ("circular dependency detected involving '" ++ node ++ "'")
      | .unvisited =>
        let state ← orFault (setMark state idx .inProgress)
        let deps := (adj reg node).getD []
        let s ← deps.foldlM (fun s dep => dfs reg depth dep s) (state, order)
        close node s.1 s.2

/-- The package and all that it depends on, in the order in which they are installed. The search
never goes deeper than there are packages. -/
def resolveDependencies (reg : List Package) (name : String) : Attempt String (List String) :=
  if adj reg name = none then fail ("package '" ++ name ++ "' not found")
  else do
    let state := reg.map fun p => (p.name, Mark.unvisited)
    let s ← dfs reg (reg.length + 1) name (state, [])
    return s.2

/-! ### The registry -/

/-- The registry: the names are distinct, and there is a limit on their number. -/
structure Registry where
  packages : List Package
  distinct : (packages.map Package.name).Nodup
  bounded : packages.length ≤ maxPackages

/-! ### The built-in packages -/

/-- A package of `init`. -/
def builtin (name : String) (major minor patch : UInt32) (deps : List String) : Package where
  name := name
  version := ⟨major, minor, patch⟩
  dependencies := deps.map fun dep => { name := dep }

def init : Registry where
  packages :=
    [builtin "kernel" 1 0 0 [],
      builtin "bootloader" 0 9 23 [],
      builtin "vfs" 1 0 0 ["kernel"],
      builtin "memory" 1 0 0 ["kernel"],
      builtin "scheduler" 1 0 0 ["kernel", "memory"],
      builtin "tcp-ip" 1 0 0 ["kernel", "memory"],
      builtin "http" 1 1 0 ["tcp-ip"],
      builtin "dns" 1 0 0 ["tcp-ip"],
      builtin "ssh" 2 0 0 ["tcp-ip", "tls"],
      builtin "mqtt" 1 0 0 ["tcp-ip"],
      builtin "websocket" 1 0 0 ["http"],
      builtin "tls" 1 0 0 ["tcp-ip"],
      builtin "permissions" 1 0 0 ["vfs"],
      builtin "capabilities" 1 0 0 ["kernel"],
      builtin "firewall" 1 0 0 ["tcp-ip"],
      builtin "audit" 1 0 0 ["vfs", "permissions"],
      builtin "inference" 1 0 0 ["kernel", "memory"],
      builtin "training" 0 5 0 ["inference"],
      builtin "knowledge" 1 0 0 ["vfs"],
      builtin "workflow" 1 0 0 ["inference", "knowledge"],
      builtin "evolve" 0 3 0 ["inference", "kernel"],
      builtin "debugger" 1 0 0 ["kernel"],
      builtin "profiler" 1 0 0 ["kernel", "scheduler"],
      builtin "unittest" 1 0 0 ["kernel"],
      builtin "fuzzer" 1 0 0 ["kernel"],
      builtin "shell" 1 0 0 ["vfs", "scheduler"],
      builtin "editor" 1 0 0 ["vfs"],
      builtin "calculator" 1 0 0 [],
      builtin "snake" 1 0 0 ["vfs"],
      builtin "tetris" 1 0 0 ["vfs"]]
  distinct := by decide +kernel
  bounded := by decide

end MerlionKernel.Pkg
