import Mathlib.Logic.Function.Basic

/-!
# Maps

A `BTreeMap` is used for the value it holds under each key, so it is modelled by the function
that looks a key up. Iteration in key order is not part of this model.
-/

namespace MerlionKernel.Rust

universe u v

/-- A `BTreeMap`: the value under each key, if there is one. -/
def BTreeMap (κ : Type u) (ν : Type v) : Type (max u v) := κ → Option ν

namespace BTreeMap

variable {κ : Type u} {ν : Type v} [DecidableEq κ] {m : BTreeMap κ ν} {k k' : κ} {v : ν}

/-- `BTreeMap::new()`. -/
def new : BTreeMap κ ν := fun _ => none

/-- `m.get(&k)`. -/
def get (m : BTreeMap κ ν) (k : κ) : Option ν := m k

/-- `m.insert(k, v)`. -/
def insert (m : BTreeMap κ ν) (k : κ) (v : ν) : BTreeMap κ ν := Function.update m k (some v)

/-- `m.remove(&k)`. -/
def remove (m : BTreeMap κ ν) (k : κ) : BTreeMap κ ν := Function.update m k none

/-- `m.entry(k).or_insert(v)`: the value under `k`, which is `v` if there was none. -/
def orInsert (m : BTreeMap κ ν) (k : κ) (v : ν) : ν × BTreeMap κ ν :=
  match m.get k with
  | some w => (w, m)
  | none => (v, m.insert k v)

@[simp] theorem get_insert_self : (m.insert k v).get k = some v := Function.update_self ..

theorem get_insert_of_ne (h : k' ≠ k) : (m.insert k v).get k' = m.get k' :=
  Function.update_of_ne h ..

@[simp] theorem get_remove_self : (m.remove k).get k = none := Function.update_self ..

theorem get_remove_of_ne (h : k' ≠ k) : (m.remove k).get k' = m.get k' :=
  Function.update_of_ne h ..

end BTreeMap

end MerlionKernel.Rust
