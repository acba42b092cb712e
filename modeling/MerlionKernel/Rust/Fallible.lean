import MerlionKernel.Rust.Exec

/-!
# Calls that return a `Result`, and checked integers

A call with the return type `Result<_, &str>` ends with a value, with `Err` or by stopping.
`Try` keeps the last two apart, so that `?` is the bind of the monad.

`I64` and `I32` carry their range. Arithmetic on `I32` is written over the integers and brought back
by `arith`, which stops outside the range.
-/

namespace MerlionKernel.Rust

/-- The ways a call that returns a `Result` ends without a value. -/
inductive Halt
  | err (message : String)
  | fault (fault : Fault)

/-- A call that returns a `Result`, or stops. -/
abbrev Try (α : Type) := Except Halt α

variable {α : Type}

/-- `Err(message)`. -/
def err (message : String) : Try α := .error (.err message)

/-- A call that returns no `Result` inside one that does. -/
def lift : Exec α → Try α
  | .ok a => .ok a
  | .error f => .error (.fault f)

/-! ### Errors of other types -/

/-- The ways a call that returns a `Result<_, E>` ends without a value. -/
inductive Stop (ε : Type)
  | err (e : ε)
  | fault (fault : Fault)
  deriving DecidableEq

/-- A call that returns a `Result<_, E>`, or stops. -/
abbrev Attempt (ε α : Type) := Except (Stop ε) α

section Attempt

variable {ε : Type}

/-- `Err(e)`. -/
def fail (e : ε) : Attempt ε α := .error (.err e)

/-- A call that returns no `Result` inside one that does. -/
def orFault : Exec α → Attempt ε α
  | .ok a => .ok a
  | .error fault => .error (.fault fault)

@[simp] theorem orFault_ok (a : α) : (orFault (.ok a) : Attempt ε α) = .ok a := rfl

end Attempt

/-! ### Signed integers -/

/-- `i64`: the integers from -2^63 up to 2^63 - 1. -/
abbrev I64 := { n : Int // -9223372036854775808 ≤ n ∧ n < 9223372036854775808 }

/-- `i32`: the integers from -2^31 up to 2^31 - 1. -/
abbrev I32 := { n : Int // -2147483648 ≤ n ∧ n < 2147483648 }

namespace I32

/-- `i32::MAX`. -/
def max : I32 := ⟨2147483647, by decide⟩

theorem le_max (v : I32) : v.1 ≤ max.1 := Int.le_of_lt_add_one v.2.2

/-- The value of a plain operation, which stops on overflow. -/
def arith (n : Int) : Exec I32 :=
  if h : -2147483648 ≤ n ∧ n < 2147483648 then .ok ⟨n, h⟩ else .error .overflow

/-- A plain operation overflows exactly outside the range. -/
theorem arith_eq_error_iff {n : Int} {fault : Fault} :
    arith n = .error fault ↔ fault = .overflow ∧ ¬ (-2147483648 ≤ n ∧ n < 2147483648) := by
  unfold arith
  split
  · rename_i h
    simp [h]
  · rename_i h
    simp [h, eq_comm]

/-- A plain operation that returns has the value of the operation. -/
theorem of_arith {n : Int} {v : I32} (h : arith n = .ok v) : v.1 = n := by
  unfold arith at h
  split at h
  · cases h
    rfl
  · cases h

end I32

/-- `n as isize` for a `usize`. -/
def asIsize (n : Nat) : Int := if n < 9223372036854775808 then n else n - 18446744073709551616

theorem asIsize_of_lt {n : Nat} (h : n < 9223372036854775808) : asIsize n = n := if_pos h

end MerlionKernel.Rust
