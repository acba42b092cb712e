import Mathlib.Data.BitVec
import MerlionKernel.Rust.Find

/-!
# System call filters

The filters of `capability.rs`. A process with a filter may make the system calls of a mask of 64
bits, and any other call gets the action of the filter. A process without a filter may make every
call. The table has room for 32 filters, and one that does not fit is ignored.

A filter that is set therefore takes effect exactly when the process had one already or the table
was not full. Calls for other processes do not matter afterwards.
-/

namespace MerlionKernel.Capability.Seccomp

open Rust

/-- `MAX_SYSCALLS`. -/
def maxSyscalls : Nat := 64

/-- `MAX_FILTERS`. -/
def maxFilters : Nat := 32

/-- What is done with a system call. -/
inductive FilterAction
  | allow
  | kill
  | log
  deriving DecidableEq

/-- The filter of a process. -/
structure SyscallFilter where
  pid : Nat
  allowed : BitVec 64
  defaultAction : FilterAction

/-- The filter is that of the process. -/
def isOf (pid : Nat) (f : SyscallFilter) : Bool := f.pid = pid

/-- The filter of a process in the table. -/
def find (filters : List SyscallFilter) (pid : Nat) : Option SyscallFilter :=
  filters.find? (isOf pid)

/-- Set or update the filter of a process. -/
def seccompSet (filters : List SyscallFilter) (pid : Nat) (allowedMask : BitVec 64)
    (defaultAction : FilterAction) : List SyscallFilter :=
  if (find filters pid).isSome then
    modifyFirst (isOf pid) (fun f => { f with allowed := allowedMask, defaultAction }) filters
  else if filters.length < maxFilters then
    filters ++ [{ pid, allowed := allowedMask, defaultAction }]
  else filters

/-- What is done with a system call of a process. -/
def seccompCheck (filters : List SyscallFilter) (pid syscallNum : Nat) : FilterAction :=
  match find filters pid with
  | some f =>
    if syscallNum < maxSyscalls ∧ f.allowed &&& (1#64 <<< syscallNum) ≠ 0 then .allow
    else f.defaultAction
  | none => .allow

/-- Remove the filter of a process. -/
def seccompRemove (filters : List SyscallFilter) (pid : Nat) : List SyscallFilter :=
  filters.filter (·.pid ≠ pid)

/-- Only read, write, exit and getpid are allowed. -/
def seccompStrict (filters : List SyscallFilter) (pid : Nat) : List SyscallFilter :=
  seccompSet filters pid ((1 <<< 0) ||| (1 <<< 1) ||| (1 <<< 2) ||| (1 <<< 3)) .kill

/-- A call of the filter interface. -/
inductive Call
  | set (pid : Nat) (allowedMask : BitVec 64) (defaultAction : FilterAction)
  | strict (pid : Nat)
  | remove (pid : Nat)

/-- The process that a call names. -/
def Call.pid : Call → Nat
  | .set pid _ _ => pid
  | .strict pid => pid
  | .remove pid => pid

def perform (filters : List SyscallFilter) : Call → List SyscallFilter
  | .set pid allowedMask defaultAction => seccompSet filters pid allowedMask defaultAction
  | .strict pid => seccompStrict filters pid
  | .remove pid => seccompRemove filters pid

/-- The table after a history of calls. -/
def performAll (filters : List SyscallFilter) (calls : List Call) : List SyscallFilter :=
  calls.foldl perform filters

/-! ### One call -/

theorem isOf_of_ne {pid pid' : Nat} {f : SyscallFilter} (h : pid' ≠ pid) (hf : f.pid = pid) :
    isOf pid' f = false := by
  simp [isOf, hf, Ne.symm h]

theorem find_set_of_ne (filters : List SyscallFilter) {pid pid' : Nat} (h : pid' ≠ pid)
    (mask : BitVec 64) (action : FilterAction) :
    find (seccompSet filters pid mask action) pid' = find filters pid' := by
  unfold seccompSet
  split_ifs with hfound hroom
  · apply find?_modifyFirst_of_disjoint
    · exact fun f hf => isOf_of_ne h (of_decide_eq_true hf)
    · exact fun f hf => isOf_of_ne h (of_decide_eq_true hf)
  · have hnew : isOf pid' ⟨pid, mask, action⟩ = false := isOf_of_ne h rfl
    rw [find, List.find?_append, List.find?_cons_of_neg (by simp [hnew]), List.find?_nil,
      Option.or_none, find]
  · rfl

theorem find_remove_of_ne (filters : List SyscallFilter) {pid pid' : Nat} (h : pid' ≠ pid) :
    find (seccompRemove filters pid) pid' = find filters pid' := by
  rw [find, seccompRemove, List.find?_filter, find]
  congr 1
  funext f
  by_cases hf : f.pid = pid'
  · simp [isOf, hf, h]
  · simp [isOf, hf]

/-- A call for another process does not touch the filter of a process. -/
theorem find_perform_of_ne (filters : List SyscallFilter) {c : Call} {pid : Nat}
    (h : c.pid ≠ pid) : find (perform filters c) pid = find filters pid := by
  cases c with
  | set pid' mask action => exact find_set_of_ne filters h.symm mask action
  | strict pid' => exact find_set_of_ne filters h.symm _ _
  | remove pid' => exact find_remove_of_ne filters h.symm

/-- Neither do any number of such calls. -/
theorem find_performAll_of_ne {calls : List Call} {pid : Nat} (h : ∀ c ∈ calls, c.pid ≠ pid)
    (filters : List SyscallFilter) : find (performAll filters calls) pid = find filters pid := by
  induction calls generalizing filters with
  | nil => rfl
  | cons c calls ih =>
    rw [List.forall_mem_cons] at h
    exact (ih h.2 (perform filters c)).trans (find_perform_of_ne filters h.1)

/-- There is a filter to be changed, or room for a new one. -/
def HasRoom (filters : List SyscallFilter) (pid : Nat) : Prop :=
  (find filters pid).isSome ∨ filters.length < maxFilters

/-- With room the filter of the process is the one that was set. -/
theorem find_set_of_hasRoom {filters : List SyscallFilter} {pid : Nat} (h : HasRoom filters pid)
    (mask : BitVec 64) (action : FilterAction) :
    find (seccompSet filters pid mask action) pid = some ⟨pid, mask, action⟩ := by
  by_cases hfound : (find filters pid).isSome
  · obtain ⟨f, hf⟩ := Option.isSome_iff_exists.mp hfound
    have hpid : isOf pid f = true := List.find?_some hf
    obtain rfl : f.pid = pid := of_decide_eq_true hpid
    rw [seccompSet, if_pos hfound, find, find?_modifyFirst_self]
    · rw [find] at hf
      rw [hf]
      rfl
    · exact fun f hf => hf
  · rw [seccompSet, if_neg hfound, if_pos (h.resolve_left hfound), find, List.find?_append]
    rw [Option.not_isSome_iff_eq_none, find] at hfound
    rw [hfound, Option.none_or]
    exact List.find?_cons_of_pos (decide_eq_true rfl)

/-- Without room the process has no filter afterwards either. -/
theorem find_set_of_not_hasRoom {filters : List SyscallFilter} {pid : Nat}
    (h : ¬ HasRoom filters pid) (mask : BitVec 64) (action : FilterAction) :
    find (seccompSet filters pid mask action) pid = none := by
  obtain ⟨hfound, hfull⟩ := not_or.mp h
  rw [seccompSet, if_neg hfound, if_neg hfull]
  exact Option.not_isSome_iff_eq_none.mp hfound

/-! ### What is checked -/

/-- A bit of the mask is tested. -/
theorem and_shiftLeft_ne_zero_iff {n : Nat} (hn : n < 64) (mask : BitVec 64) :
    mask &&& (1#64 <<< n) ≠ 0 ↔ mask.getLsbD n = true := by
  have hpow : (1#64 <<< n) = BitVec.twoPow 64 n := rfl
  rw [hpow, BitVec.and_twoPow]
  by_cases hbit : mask.getLsbD n = true
  · rw [if_pos hbit]
    refine iff_of_true (fun hzero => ?_) hbit
    have := congrArg (BitVec.getLsbD · n) hzero
    simp [hn] at this
  · rw [if_neg hbit]
    exact iff_of_false (fun h => h rfl) hbit

/-- The calls of the mask are allowed, and any other call kills the process. -/
def FailsClosed (filters : List SyscallFilter) (pid : Nat) (mask : BitVec 64) : Prop :=
  ∀ n < 2 ^ 64, seccompCheck filters pid n =
    if n < maxSyscalls ∧ mask.getLsbD n = true then .allow else .kill

theorem failsClosed_of_find {filters : List SyscallFilter} {pid : Nat} {mask : BitVec 64}
    (h : find filters pid = some ⟨pid, mask, .kill⟩) : FailsClosed filters pid mask := by
  intro n _
  rw [seccompCheck, h]
  refine if_congr ?_ rfl rfl
  exact and_congr_right fun hn => and_shiftLeft_ne_zero_iff hn mask

/-- Without a filter the first call that no mask has a bit for is allowed. -/
theorem not_failsClosed_of_find {filters : List SyscallFilter} {pid : Nat} {mask : BitVec 64}
    (h : find filters pid = none) : ¬ FailsClosed filters pid mask := by
  intro hclosed
  have hcheck := hclosed maxSyscalls (by decide)
  rw [seccompCheck, h, if_neg (fun hlt => Nat.lt_irrefl _ hlt.1)] at hcheck
  cases hcheck

/-- A process fails closed from the time its filter is set to the next call that names it, exactly
when the table has room for the filter when it is set. -/
theorem failsClosed_iff_hasRoom (before later : List Call) (pid : Nat) (mask : BitVec 64)
    (hlater : ∀ c ∈ later, c.pid ≠ pid) :
    FailsClosed (performAll [] (before ++ .set pid mask .kill :: later)) pid mask ↔
      HasRoom (performAll [] before) pid := by
  have hfind : find (performAll [] (before ++ .set pid mask .kill :: later)) pid =
      find (seccompSet (performAll [] before) pid mask .kill) pid := by
    rw [performAll, List.foldl_append, List.foldl_cons]
    exact find_performAll_of_ne hlater _
  constructor
  · intro hclosed
    by_contra hfull
    rw [find_set_of_not_hasRoom hfull] at hfind
    exact not_failsClosed_of_find hfind hclosed
  · intro hroom
    rw [find_set_of_hasRoom hroom] at hfind
    exact failsClosed_of_find hfind

/-- Another process loses its filter in between. -/
theorem failsClosed_one :
    FailsClosed (performAll [] [.set 1 5 .kill, .remove 2]) 1 5 :=
  (failsClosed_iff_hasRoom [] [.remove 2] 1 5 (by decide)).mpr (.inr (by decide))

/-- With filters for 32 other processes, a filter that allows nothing lets a call through. -/
theorem full_table_allows :
    seccompCheck (performAll [] ((List.range 32).map .strict ++ [.set 32 0 .kill])) 32 7 =
      .allow := by
  decide +kernel

end MerlionKernel.Capability.Seccomp
