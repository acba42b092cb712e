import Mathlib.Data.BitVec
import MerlionKernel.Rust.Find

/-!
# Capability sets of processes

The capability table of `capability.rs`. A process has three sets of capabilities, each a word of
64 bits: the effective ones, those that it is permitted, and those that its children inherit. A
process without an entry has none. The table holds at most 64 entries, and a new process that
does not fit is ignored.

The table is described by what `get_caps` answers. Every operation changes the answer for one
process only.
-/

namespace MerlionKernel.Capability

open Rust

/-- A set of capabilities. -/
abbrev Caps := BitVec 64

def capKill : Caps := 1 <<< 1

/-- `CAP_ALL`: fourteen capabilities. -/
def capAll : Caps := (1 <<< 14) - 1

/-- `MAX_PROC_CAPS`. -/
def maxProcCaps : Nat := 64

/-- The capability sets of a process. -/
structure ProcCaps where
  pid : Nat
  effective : Caps
  permitted : Caps
  inheritable : Caps

/-- The capability table, with one entry for a process. -/
structure CapsTable where
  entries : List ProcCaps
  distinct : (entries.map ProcCaps.pid).Nodup
  bounded : entries.length ≤ maxProcCaps

namespace CapsTable

/-- The entry of a process. -/
def find (t : CapsTable) (pid : Nat) : Option ProcCaps := t.entries.find? fun e => e.pid = pid

/-- Change the entry of a process. -/
def modify (t : CapsTable) (pid : Nat) (change : ProcCaps → ProcCaps)
    (hchange : ∀ e, (change e).pid = e.pid) : CapsTable where
  entries := modifyFirst (fun e => e.pid = pid) change t.entries
  distinct := by
    rw [map_modifyFirst hchange]
    exact t.distinct
  bounded := by
    rw [length_modifyFirst]
    exact t.bounded

/-- Change the entry of a process, or add one if there is room. -/
def upsert (t : CapsTable) (pid : Nat) (change : ProcCaps → ProcCaps)
    (hchange : ∀ e, (change e).pid = e.pid) (new : ProcCaps) (hnew : new.pid = pid) : CapsTable :=
  if hpresent : (t.entries.any fun e => e.pid = pid) = true then t.modify pid change hchange
  else if hroom : t.entries.length < maxProcCaps then
    { entries := t.entries ++ [new]
      distinct := nodup_map_concat t.distinct (by simpa [hnew] using hpresent)
      bounded := by
        rw [List.length_append, List.length_singleton]
        exact hroom }
  else t

end CapsTable

/-! ### The calls -/

/-- The kernel process has all capabilities. -/
def init : CapsTable where
  entries := [⟨0, capAll, capAll, capAll⟩]
  distinct := by decide
  bounded := by decide

/-- Set the three sets of a process. What is effective must be permitted. -/
def setCaps (t : CapsTable) (pid : Nat) (effective permitted inheritable : Caps) : CapsTable :=
  t.upsert pid
    (fun e =>
      { e with
        effective := effective &&& permitted
        permitted := permitted
        inheritable := inheritable })
    (fun _ => rfl) ⟨pid, effective &&& permitted, permitted, inheritable⟩ rfl

/-- The effective, permitted and inheritable sets of a process. -/
def getCaps (t : CapsTable) (pid : Nat) : Caps × Caps × Caps :=
  match t.find pid with
  | some e => (e.effective, e.permitted, e.inheritable)
  | none => (0, 0, 0)

/-- All of `cap` is in the effective set of the process. -/
def hasCap (t : CapsTable) (pid : Nat) (cap : Caps) : Bool :=
  match t.find pid with
  | some e => e.effective &&& cap = cap
  | none => false

/-- Add a capability to the effective and to the permitted set. -/
def grantCap (t : CapsTable) (pid : Nat) (cap : Caps) : CapsTable :=
  t.upsert pid
    (fun e => { e with effective := e.effective ||| cap, permitted := e.permitted ||| cap })
    (fun _ => rfl) ⟨pid, cap, cap, 0⟩ rfl

/-- Remove a capability from the effective set. -/
def revokeCap (t : CapsTable) (pid : Nat) (cap : Caps) : CapsTable :=
  t.modify pid (fun e => { e with effective := e.effective &&& ~~~cap }) fun _ => rfl

/-- The child receives the inheritable set of the parent in all three sets. -/
def inheritCaps (t : CapsTable) (parentPid childPid : Nat) : CapsTable :=
  let parentInh := ((t.find parentPid).map ProcCaps.inheritable).getD 0
  setCaps t childPid parentInh parentInh parentInh

/-- Remove the entry of a process. -/
def dropCaps (t : CapsTable) (pid : Nat) : CapsTable where
  entries := t.entries.filter fun e => e.pid ≠ pid
  distinct := t.distinct.sublist (List.filter_sublist.map _)
  bounded := Nat.le_trans (List.length_filter_le _ _) t.bounded

/-! ### What `get_caps` answers -/

/-- The three sets of an entry, all empty if there is none. -/
def capsOf : Option ProcCaps → Caps × Caps × Caps
  | some e => (e.effective, e.permitted, e.inheritable)
  | none => (0, 0, 0)

variable {t : CapsTable} {pid k : Nat}

theorem getCaps_eq (t : CapsTable) (pid : Nat) : getCaps t pid = capsOf (t.find pid) := by
  unfold getCaps
  cases t.find pid with
  | none => rfl
  | some e => rfl

/-- There is an entry for the process, or room for one. -/
def CapsTable.Admits (t : CapsTable) (pid : Nat) : Prop :=
  (t.entries.any fun e => e.pid = pid) = true ∨ t.entries.length < maxProcCaps

instance (t : CapsTable) (pid : Nat) : Decidable (t.Admits pid) :=
  inferInstanceAs (Decidable (_ ∨ _))

theorem find_eq_none_iff :
    t.find pid = none ↔ (t.entries.any fun e => e.pid = pid) = false := by
  rw [CapsTable.find, List.find?_eq_none, List.any_eq_false]

/-- An operation on the entry of one process. -/
theorem find_modify {change : ProcCaps → ProcCaps} (hchange : ∀ e, (change e).pid = e.pid) :
    (t.modify pid change hchange).find k =
      if k = pid then (t.find pid).map change else t.find k := by
  unfold CapsTable.find CapsTable.modify
  by_cases hk : k = pid
  · subst hk
    rw [if_pos rfl]
    exact find?_modifyFirst_self (fun e he => by rw [hchange]; exact he) _
  · rw [if_neg hk]
    apply find?_modifyFirst_of_disjoint
    · intro e he
      simpa [of_decide_eq_true he] using Ne.symm hk
    · intro e he
      simpa [hchange, of_decide_eq_true he] using Ne.symm hk

theorem find_upsert {change : ProcCaps → ProcCaps} {hchange : ∀ e, (change e).pid = e.pid}
    {new : ProcCaps} {hnew : new.pid = pid} :
    (t.upsert pid change hchange new hnew).find k =
      if k = pid ∧ t.Admits pid then some ((t.find pid).elim new change) else t.find k := by
  unfold CapsTable.upsert
  by_cases hpresent : (t.entries.any fun e => e.pid = pid) = true
  · rw [dif_pos hpresent, find_modify]
    have hadmits : t.Admits pid := .inl hpresent
    cases hfind : t.find pid with
    | none =>
      rw [find_eq_none_iff.mp hfind] at hpresent
      cases hpresent
    | some e => simp [hadmits]
  · rw [dif_neg hpresent]
    have hnone : t.find pid = none := find_eq_none_iff.mpr (by simpa using hpresent)
    by_cases hroom : t.entries.length < maxProcCaps
    · have hadmits : t.Admits pid := .inr hroom
      rw [dif_pos hroom, hnone]
      unfold CapsTable.find
      rw [List.find?_append]
      by_cases hk : k = pid
      · subst hk
        rw [CapsTable.find] at hnone
        simp [hnone, hadmits, hnew]
      · simp [hk, hnew, Ne.symm hk]
    · rw [dif_neg hroom, if_neg]
      rintro ⟨-, hadmits⟩
      exact hadmits.elim hpresent hroom

theorem getCaps_setCaps (t : CapsTable) (pid : Nat) (e p i : Caps) (k : Nat) :
    getCaps (setCaps t pid e p i) k =
      if k = pid ∧ t.Admits pid then (e &&& p, p, i) else getCaps t k := by
  rw [getCaps_eq, getCaps_eq, setCaps, find_upsert]
  split
  · cases t.find pid with
    | none => rfl
    | some entry => rfl
  · rfl

theorem getCaps_grantCap (t : CapsTable) (pid : Nat) (cap : Caps) (k : Nat) :
    getCaps (grantCap t pid cap) k =
      if k = pid ∧ t.Admits pid then
        ((getCaps t pid).1 ||| cap, (getCaps t pid).2.1 ||| cap, (getCaps t pid).2.2)
      else getCaps t k := by
  rw [getCaps_eq, getCaps_eq, getCaps_eq, grantCap, find_upsert]
  split
  · cases t.find pid with
    | none => simp [capsOf]
    | some entry => rfl
  · rfl

theorem getCaps_revokeCap (t : CapsTable) (pid : Nat) (cap : Caps) (k : Nat) :
    getCaps (revokeCap t pid cap) k =
      if k = pid then
        ((getCaps t pid).1 &&& ~~~cap, (getCaps t pid).2.1, (getCaps t pid).2.2)
      else getCaps t k := by
  rw [getCaps_eq, getCaps_eq, getCaps_eq, revokeCap, find_modify]
  split
  · cases t.find pid with
    | none => simp [capsOf]
    | some entry => rfl
  · rfl

theorem getCaps_inheritCaps (t : CapsTable) (parent child k : Nat) :
    getCaps (inheritCaps t parent child) k =
      if k = child ∧ t.Admits child then
        ((getCaps t parent).2.2, (getCaps t parent).2.2, (getCaps t parent).2.2)
      else getCaps t k := by
  have hparent : ((t.find parent).map ProcCaps.inheritable).getD 0 = (getCaps t parent).2.2 := by
    unfold getCaps
    cases t.find parent with
    | none => rfl
    | some e => rfl
  rw [inheritCaps, getCaps_setCaps, hparent, BitVec.and_self]

theorem getCaps_dropCaps (t : CapsTable) (pid k : Nat) :
    getCaps (dropCaps t pid) k = if k = pid then (0, 0, 0) else getCaps t k := by
  rw [getCaps_eq, getCaps_eq]
  have hfind : (dropCaps t pid).find k = if k = pid then none else t.find k := by
    unfold CapsTable.find dropCaps
    rw [List.find?_filter]
    by_cases hk : k = pid
    · subst hk
      rw [if_pos rfl, List.find?_eq_none]
      simp
    · rw [if_neg hk]
      congr 1
      funext e
      by_cases he : e.pid = k
      · simp [he, hk]
      · simp [he]
  rw [hfind]
  split
  · rfl
  · rfl

end MerlionKernel.Capability
