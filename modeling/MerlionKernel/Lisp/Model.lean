import MerlionKernel.Rust.Find

/-!
# The Lisp interpreter

The values, the environment and the evaluation of `lisp.rs`. The environment is one vector of
bindings, and later ones shadow earlier ones. A call of a lambda pushes the bindings it captured
and its arguments, evaluates the body and truncates the vector by as many bindings as were pushed.
`define` changes the last binding of a name, or pushes a new one.

An evaluation answers with a value or with an error, both with the environment it leaves. `eval`
and `apply` call each other; the fuel of `eval` bounds the depth of these calls. What `print` writes
to the console is left out.
-/

namespace MerlionKernel.Lisp

open Rust

/-- The built-in functions. -/
inductive Builtin
  | add
  | sub
  | mul
  | div
  | eq
  | lt
  | gt
  | car
  | cdr
  | cons
  | list
  | print

/-- A value. A lambda has its parameters, its body and the bindings that it captured. -/
inductive LispValue
  | nil
  | int (n : Int)
  | str (s : String)
  | symbol (s : String)
  | list (elems : List LispValue)
  | func (f : Builtin)
  | lambda (params : List String) (body : LispValue) (captured : List (String × LispValue))

/-- The bindings, the oldest first. -/
structure LispEnv where
  bindings : List (String × LispValue)

namespace LispEnv

/-- The built-in functions are bound to their names. -/
def new : LispEnv where
  bindings := [("+", .func .add), ("-", .func .sub), ("*", .func .mul), ("/", .func .div),
    ("=", .func .eq), ("<", .func .lt), (">", .func .gt), ("car", .func .car),
    ("cdr", .func .cdr), ("cons", .func .cons), ("list", .func .list), ("print", .func .print)]

/-- The bound names in order. -/
def names (env : LispEnv) : List String := env.bindings.map Prod.fst

/-- The last binding of a name. -/
def get (env : LispEnv) (name : String) : Option LispValue :=
  (env.bindings.reverse.find? (·.1 = name)).map Prod.snd

/-- Set the last binding of a name, or push one. -/
def set (env : LispEnv) (name : String) (val : LispValue) : LispEnv :=
  if env.bindings.any (·.1 = name) then
    ⟨(modifyFirst (·.1 = name) (fun b => (b.1, val)) env.bindings.reverse).reverse⟩
  else ⟨env.bindings ++ [(name, val)]⟩

/-- Push a binding. -/
def push (env : LispEnv) (b : String × LispValue) : LispEnv := ⟨env.bindings ++ [b]⟩

/-- Drop the last `n` bindings. -/
def popN (env : LispEnv) (n : Nat) : LispEnv :=
  ⟨env.bindings.take (env.bindings.length - n)⟩

end LispEnv

/-! ### Built-in functions -/

/-- A value, or an error. -/
abbrev Answer := Except String LispValue

/-- Combine integers from left to right. -/
def foldInts (op : Int → Int → Int) (message : String) : Int → List LispValue → Exec Answer
  | n, [] => return .ok (.int n)
  | n, .int a :: args => do foldInts op message (← i64 (op n a)) args
  | _, _ :: _ => return .error message

/-- The truth value of a comparison. -/
def ofBool (b : Bool) : LispValue := if b then .int 1 else .nil

/-- Compare two integers. -/
def compareInts (op : Int → Int → Bool) (message : String) : List LispValue → Exec Answer
  | [.int a, .int b] => return .ok (ofBool (op a b))
  | _ => return .error message

def biAdd (args : List LispValue) : Exec Answer := foldInts (· + ·) "+ requires ints" 0 args

def biSub : List LispValue → Exec Answer
  | [.int a] => do return .ok (.int (← i64 (-a)))
  | [.int a, .int b] => do return .ok (.int (← i64 (a - b)))
  | _ => return .error "- requires 1 or 2 ints"

def biMul (args : List LispValue) : Exec Answer := foldInts (· * ·) "* requires ints" 1 args

def biDiv : List LispValue → Exec Answer
  | [.int a, .int b] =>
    if b ≠ 0 then do return .ok (.int (← i64 (a.tdiv b))) else return .error "division by zero"
  | _ => return .error "/ requires 2 ints"

def biEq : List LispValue → Exec Answer
  | [.int a, .int b] => return .ok (ofBool (a = b))
  | [.str a, .str b] => return .ok (ofBool (a = b))
  | [.nil, .nil] => return .ok (ofBool true)
  | [_, _] => return .ok (ofBool false)
  | _ => return .error "= requires 2 arguments"

def biLt (args : List LispValue) : Exec Answer := compareInts (· < ·) "< requires 2 ints" args

def biGt (args : List LispValue) : Exec Answer := compareInts (· > ·) "> requires 2 ints" args

def biCar : List LispValue → Exec Answer
  | [.list (v :: _)] => return .ok v
  | [.list []] => return .error "car: empty list"
  | _ => return .error "car requires 1 list"

def biCdr : List LispValue → Exec Answer
  | [.list (_ :: vs)] => return .ok (.list vs)
  | [.list []] => return .ok .nil
  | _ => return .error "cdr requires 1 list"

def biCons : List LispValue → Exec Answer
  | [head, .list vs] => return .ok (.list (head :: vs))
  | [head, .nil] => return .ok (.list [head])
  | [head, tail] => return .ok (.list [head, tail])
  | _ => return .error "cons requires 2 arguments"

def Builtin.call : Builtin → List LispValue → Exec Answer
  | .add, args => biAdd args
  | .sub, args => biSub args
  | .mul, args => biMul args
  | .div, args => biDiv args
  | .eq, args => biEq args
  | .lt, args => biLt args
  | .gt, args => biGt args
  | .car, args => biCar args
  | .cdr, args => biCdr args
  | .cons, args => biCons args
  | .list, args => return .ok (.list args)
  | .print, _ => return .ok .nil

/-! ### Evaluation -/

/-- An evaluation changes the environment and answers with a result or an error. -/
def Eval (α : Type) := LispEnv → Exec (Except String α × LispEnv)

/-- An error ends the evaluation, with the environment as it is. -/
instance : Monad Eval where
  pure a := fun env => .ok (.ok a, env)
  bind m f := fun env => do
    match ← m env with
    | (.ok a, env) => f a env
    | (.error e, env) => return (.error e, env)

namespace Eval

variable {α β : Type}

def fail (message : String) : Eval α := fun env => .ok (.error message, env)

def getEnv : Eval LispEnv := fun env => .ok (.ok env, env)

def setEnv (env : LispEnv) : Eval Unit := fun _ => .ok (.ok (), env)

def ofAnswer (answer : Exec Answer) : Eval LispValue := fun env => do return (← answer, env)

/-- The call is nested too deeply for the fuel. -/
def diverge : Eval α := fun _ => .error .diverge

theorem bind_apply (m : Eval α) (f : α → Eval β) (env : LispEnv) :
    (m >>= f) env = m env >>= fun r =>
      match r with
      | (.ok a, env) => f a env
      | (.error e, env) => .ok (.error e, env) := rfl

end Eval

/-- The symbols of a list. -/
def symbols (vs : List LispValue) : List String :=
  vs.filterMap fun | .symbol s => some s | _ => none

/-- All of the list are symbols. -/
def allSymbols : List LispValue → Option (List String)
  | [] => some []
  | .symbol s :: vs => (allSymbols vs).map (s :: ·)
  | _ :: _ => none

def sfQuote : List LispValue → Eval LispValue
  | [_, v] => return v
  | _ => .fail "quote requires 1 argument"

/-- A value that counts as true. -/
def truthy : LispValue → Bool
  | .nil => false
  | .int 0 => false
  | _ => true

section Forms

variable (eval : LispValue → Eval LispValue)

def sfIf : List LispValue → Eval LispValue
  | [_, cond, yes] => do if truthy (← eval cond) then eval yes else return .nil
  | [_, cond, yes, no] => do if truthy (← eval cond) then eval yes else eval no
  | _ => .fail "if requires 2 or 3 arguments"

/-- Bind a name to a value, or to a lambda that captures the environment. -/
def sfDefine : List LispValue → Eval LispValue
  | [_, .symbol name, value] => do
    let v ← eval value
    .setEnv ((← .getEnv).set name v)
    return .nil
  | [_, .list (.symbol fname :: sig), body] => do
    let env ← .getEnv
    .setEnv (env.set fname (.lambda (symbols sig) body env.bindings))
    return .nil
  | [_, .list (_ :: _), _] => .fail "define: name must be a symbol"
  | [_, _, _] => .fail "define: first arg must be symbol or (name params...)"
  | _ => .fail "define requires 2 arguments"

def sfLambda : List LispValue → Eval LispValue
  | [_, .list params, body] =>
    match allSymbols params with
    | some params => do return .lambda params body (← .getEnv).bindings
    | none => .fail "lambda params must be symbols"
  | [_, _, _] => .fail "lambda: first arg must be param list"
  | _ => .fail "lambda requires 2 arguments"

/-- Evaluate the forms in order. The answer is that of the last one. -/
def sfBegin (r : LispValue) : List LispValue → Eval LispValue
  | [] => return r
  | form :: forms => do sfBegin (← eval form) forms

/-- Evaluate the arguments of a call in order. -/
def evalArgs : List LispValue → Eval (List LispValue)
  | [] => return []
  | a :: args => do return (← eval a) :: (← evalArgs args)

/-- The environment that the body of a lambda is evaluated in. -/
def LispEnv.enter (env : LispEnv) (captured : List (String × LispValue)) (params : List String)
    (args : List LispValue) : LispEnv :=
  (captured ++ params.zip args).foldl .push env

/-- Apply a function to values. -/
def applyWith (func : LispValue) (args : List LispValue) : Eval LispValue := fun env =>
  match func with
  | .func f => Eval.ofAnswer (f.call args) env
  | .lambda params body captured =>
    if args.length ≠ params.length then
      .ok (.error s!"expected {params.length} args, got {args.length}", env)
    else do
      let (r, env) ← eval body (env.enter captured params args)
      return (r, env.popN (params.length + captured.length))
  | _ => .ok (.error "not a function", env)

/-- Evaluate a list: a special form or a call. -/
def evalList (head : LispValue) (rest : List LispValue) : Eval LispValue :=
  let call : Eval LispValue := do
    let func ← eval head
    let args ← evalArgs eval rest
    applyWith eval func args
  match head with
  | .symbol s =>
    if s = "quote" then sfQuote (head :: rest)
    else if s = "if" then sfIf eval (head :: rest)
    else if s = "define" then sfDefine eval (head :: rest)
    else if s = "lambda" then sfLambda (head :: rest)
    else if s = "begin" then sfBegin eval .nil rest
    else call
  | _ => call

end Forms

/-- Evaluate an expression. -/
def eval : Nat → LispValue → Eval LispValue
  | 0, _ => .diverge
  | _ + 1, .symbol name => do
    match (← .getEnv).get name with
    | some v => return v
    | none => .fail s!"undefined symbol: {name}"
  | _ + 1, .list [] => return .nil
  | fuel + 1, .list (head :: rest) => evalList (eval fuel) head rest
  | _ + 1, v => return v

/-- Apply a function to evaluated arguments. -/
def apply (fuel : Nat) (func : LispValue) (args : List LispValue) : Eval LispValue :=
  applyWith (eval fuel) func args

end MerlionKernel.Lisp
