import MerlionKernel.Lisp.Model
import MerlionKernel.Theory.Run

/-!
# The scope of a call

An evaluation never takes a name from the environment: it ends with the names that were there and
perhaps new ones behind them. This holds for a call of a lambda too, as the vector is truncated by
the number of bindings that were pushed.

But the truncation takes the last bindings, whatever they are. If the body has bound new names, it
is these that go, and as many of the pushed ones stay. So the names are as before the call exactly
when the body binds no new name.
-/

namespace MerlionKernel.Lisp

open Rust Theory

/-! ### Names -/

theorem LispEnv.isPrefix_names_set (env : LispEnv) (name : String) (val : LispValue) :
    env.names <+: (env.set name val).names := by
  rw [set]
  split_ifs with hbound
  · have hsame : ((modifyFirst (·.1 = name) (fun b => (b.1, val))
        env.bindings.reverse).reverse.map Prod.fst) = env.bindings.map Prod.fst := by
      rw [List.map_reverse, map_modifyFirst (f := fun b => (b.1, val)) fun _ => rfl,
        ← List.map_reverse, List.reverse_reverse]
    exact ⟨[], by rw [List.append_nil, names, names, hsame]⟩
  · rw [names, names, List.map_append]
    exact List.prefix_append _ _

theorem LispEnv.names_enter (env : LispEnv) (captured : List (String × LispValue))
    (params : List String) (args : List LispValue) :
    (env.enter captured params args).names =
      env.names ++ (captured ++ params.zip args).map Prod.fst := by
  rw [enter]
  generalize captured ++ params.zip args = pushed
  induction pushed generalizing env with
  | nil => simp
  | cons b pushed ih =>
    rw [List.foldl_cons, ih, push, names, List.map_append, List.append_assoc]
    rfl

/-- What is left of the names when as many bindings are dropped as were pushed. -/
theorem LispEnv.names_popN {env scope : LispEnv} {pushed : List String}
    (h : env.names ++ pushed <+: scope.names) :
    env.names <+: (scope.popN pushed.length).names ∧
      ((scope.popN pushed.length).names = env.names ↔
        scope.names.length = (env.names ++ pushed).length) := by
  obtain ⟨extra, hextra⟩ := h
  have hnames : (scope.popN pushed.length).names =
      env.names ++ (pushed ++ extra).take extra.length := by
    have hlen : scope.bindings.length = scope.names.length := (List.length_map _).symm
    rw [popN, names, List.map_take, hlen, ← names, ← hextra, List.append_assoc,
      List.take_append, List.take_of_length_le (by simp; omega)]
    congr 2
    simp
    omega
  rw [hnames, ← hextra]
  refine ⟨List.prefix_append _ _, ?_⟩
  constructor
  · intro hsame
    have hlen := congrArg List.length hsame
    simp only [List.length_append, List.length_take] at hlen ⊢
    omega
  · intro hlen
    obtain rfl : extra = [] := by simpa using hlen
    simp

/-! ### Evaluations only add names -/

section Grows

variable {α β : Type}

/-- The evaluation ends with the names that it began with, and perhaps more behind them. -/
def Grows (m : Eval α) : Prop :=
  ∀ env r env', m env = .ok (r, env') → env.names <+: env'.names

theorem Grows.of_same {m : Eval α} (h : ∀ env r env', m env = .ok (r, env') → env' = env) :
    Grows m := by
  intro env r env' hm
  obtain rfl := h env r env' hm
  exact List.prefix_rfl

theorem grows_pure (a : α) : Grows (pure a : Eval α) := .of_same <| by
  rintro env r env' hm
  cases hm
  rfl

theorem grows_fail (message : String) : Grows (.fail message : Eval α) := .of_same <| by
  rintro env r env' hm
  cases hm
  rfl

theorem grows_getEnv : Grows .getEnv := .of_same <| by
  rintro env r env' hm
  cases hm
  rfl

theorem Grows.bind {m : Eval α} {f : α → Eval β} (hm : Grows m) (hf : ∀ a, Grows (f a)) :
    Grows (m >>= f) := by
  intro env r env' hrun
  rw [Eval.bind_apply, bind_eq_ok_iff] at hrun
  obtain ⟨⟨a, mid⟩, hfirst, hrest⟩ := hrun
  have hmid := hm env a mid hfirst
  cases a with
  | ok a => exact hmid.trans (hf a mid r env' hrest)
  | error e =>
    cases hrest
    exact hmid

/-- A name is bound in the environment that is there. -/
theorem grows_bindName {val : LispEnv → LispValue} (name : String) (rest : Eval β)
    (hrest : Grows rest) :
    Grows (do
      let env ← Eval.getEnv
      Eval.setEnv (env.set name (val env))
      rest) := by
  intro env r env' hrun
  exact (env.isPrefix_names_set name (val env)).trans (hrest _ r env' hrun)

theorem grows_ofAnswer (answer : Exec Answer) : Grows (.ofAnswer answer) := .of_same <| by
  intro env r env' hm
  obtain ⟨a, -, ha⟩ := bind_eq_ok_iff.mp hm
  cases ha
  rfl

theorem grows_sfQuote (elems : List LispValue) : Grows (sfQuote elems) := by
  unfold sfQuote
  split
  · exact grows_pure _
  · exact grows_fail _

theorem grows_sfLambda (elems : List LispValue) : Grows (sfLambda elems) := by
  unfold sfLambda
  split
  · split
    · exact grows_getEnv.bind fun _ => grows_pure _
    · exact grows_fail _
  · exact grows_fail _
  · exact grows_fail _

variable {ev : LispValue → Eval LispValue} (hev : ∀ v, Grows (ev v))

include hev

theorem grows_sfIf (elems : List LispValue) : Grows (sfIf ev elems) := by
  unfold sfIf
  split
  · refine (hev _).bind fun v => ?_
    split_ifs
    · exact hev _
    · exact grows_pure _
  · refine (hev _).bind fun v => ?_
    split_ifs
    · exact hev _
    · exact hev _
  · exact grows_fail _

theorem grows_sfDefine (elems : List LispValue) : Grows (sfDefine ev elems) := by
  unfold sfDefine
  split
  · exact (hev _).bind fun v => grows_bindName _ _ (grows_pure _)
  · exact grows_bindName _ _ (grows_pure _)
  · exact grows_fail _
  · exact grows_fail _
  · exact grows_fail _

theorem grows_sfBegin (forms : List LispValue) (r : LispValue) : Grows (sfBegin ev r forms) := by
  induction forms generalizing r with
  | nil => exact grows_pure r
  | cons form forms ih => exact (hev form).bind fun v => ih v

theorem grows_evalArgs (args : List LispValue) : Grows (evalArgs ev args) := by
  induction args with
  | nil => exact grows_pure []
  | cons a args ih => exact (hev a).bind fun _ => ih.bind fun _ => grows_pure _

/-- A call of a lambda keeps the names too, and has them as before if the body binds no new
one. -/
theorem names_applyWith {params : List String} {body : LispValue}
    {captured : List (String × LispValue)} {args : List LispValue} {env scope : LispEnv}
    {r : Answer} (hargs : args.length = params.length)
    (hbody : ev body (env.enter captured params args) = .ok (r, scope)) :
    let env' := scope.popN (params.length + captured.length)
    env.names <+: env'.names ∧
      (env'.names = env.names ↔
        scope.names.length = (env.enter captured params args).names.length) := by
  have hgrows := hev body _ _ _ hbody
  have hlen : params.length + captured.length =
      ((captured ++ params.zip args).map Prod.fst).length := by
    simp [hargs, Nat.add_comm]
  rw [LispEnv.names_enter] at hgrows ⊢
  rw [hlen]
  exact LispEnv.names_popN hgrows

theorem grows_applyWith (func : LispValue) (args : List LispValue) :
    Grows (applyWith ev func args) := by
  intro env r env' hrun
  unfold applyWith at hrun
  split at hrun
  · exact grows_ofAnswer _ env r env' hrun
  · split_ifs at hrun with hargs
    · cases hrun
      exact List.prefix_rfl
    · obtain ⟨⟨r', scope⟩, hbody, hpop⟩ := bind_eq_ok_iff.mp hrun
      cases hpop
      exact (names_applyWith hev (not_not.mp hargs) hbody).1
  · cases hrun
    exact List.prefix_rfl

theorem grows_evalList (head : LispValue) (rest : List LispValue) :
    Grows (evalList ev head rest) := by
  have hcall : Grows (do
      let func ← ev head
      let args ← evalArgs ev rest
      applyWith ev func args) :=
    (hev head).bind fun func => (grows_evalArgs hev rest).bind fun args =>
      grows_applyWith hev func args
  unfold evalList
  split
  · split_ifs
    · exact grows_sfQuote _
    · exact grows_sfIf hev _
    · exact grows_sfDefine hev _
    · exact grows_sfLambda _
    · exact grows_sfBegin hev _ _
    · exact hcall
  · exact hcall

end Grows

theorem grows_eval (fuel : Nat) (expr : LispValue) : Grows (eval fuel expr) := by
  induction fuel generalizing expr with
  | zero => exact fun _ _ _ h => by cases h
  | succ fuel ih =>
    cases expr with
    | symbol name =>
      refine grows_getEnv.bind fun env => ?_
      split
      · exact grows_pure _
      · exact grows_fail _
    | list elems =>
      cases elems with
      | nil => exact grows_pure _
      | cons head rest => exact grows_evalList ih head rest
    | nil => exact grows_pure _
    | int n => exact grows_pure _
    | str s => exact grows_pure _
    | func f => exact grows_pure _
    | lambda params body captured => exact grows_pure _

/-! ### Calls -/

/-- A line of a session. An error is printed, and what was bound before it stays. -/
def line (depth : Nat) (env : LispEnv) (expr : LispValue) : Exec LispEnv := do
  let (_, env) ← eval depth expr env
  return env

/-- No line of a session, also one with an error, takes a name away or moves it. -/
theorem always_names_kept (depth : Nat) (env : LispEnv) (exprs : List LispValue) :
    Always (line depth) (env.names <+: ·.names) env exprs := by
  intro done _ env' hrun
  refine @run_invariant _ _ _ (env.names <+: ·.names) ?_ _ _ _ List.prefix_rfl hrun
  intro mid expr env' hmid hline
  obtain ⟨⟨r, _⟩, heval, ⟨⟩⟩ := bind_eq_ok_iff.mp hline
  exact hmid.trans (grows_eval depth expr mid r _ heval)

end MerlionKernel.Lisp
