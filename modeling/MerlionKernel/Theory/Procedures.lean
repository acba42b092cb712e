import Mathlib.Logic.Relation
import MerlionKernel.Rust.Exec

/-!
# Recursive procedures

Procedures that call each other, and themselves, without any bound on the depth. A body is a
program `Prog ρ α` that makes calls `c`, with an answer in `ρ c`, and ends with a result or a fault.
A call is answered when its body returns for some depth of the calls.

* `Prog.wp` — weakest preconditions, over what is assumed of calls and their answers
* `answers_of_wp` — what every body guarantees, assuming it of the calls it makes, every answer
  has
* `answers_iff` — if the calls that are not stuck only make calls with a smaller measure, a
  call is answered exactly when no stuck call is reached from it
-/

namespace MerlionKernel.Theory

open Rust Relation

/-- A program that makes calls. -/
inductive Prog {ι : Type} (ρ : ι → Type) (α : Type) : Type
  | ret (a : α)
  | fault (e : Fault)
  | call (c : ι) (k : ρ c → Prog ρ α)

namespace Prog

variable {ι : Type} {ρ : ι → Type} {α β : Type}

protected def bind (p : Prog ρ α) (f : α → Prog ρ β) : Prog ρ β :=
  match p with
  | ret a => f a
  | fault e => fault e
  | call c k => call c fun r => (k r).bind f

instance : Monad (Prog ρ) where
  pure := ret
  bind := Prog.bind

/-- The program that makes one call and returns its answer. -/
def ask (c : ι) : Prog ρ (ρ c) := call c ret

/-- The result, when the calls are answered by a function. -/
def exec (answer : ∀ c, Exec (ρ c)) : Prog ρ α → Exec α
  | ret a => .ok a
  | fault e => .error e
  | call c k => answer c >>= fun r => (k r).exec answer

variable {answer : ∀ c, Exec (ρ c)}

@[simp] theorem exec_ask {c : ι} : (ask c).exec answer = answer c :=
  bind_pure (answer c)

@[simp] theorem exec_bind {p : Prog ρ α} {f : α → Prog ρ β} :
    (p >>= f).exec answer = p.exec answer >>= fun a => (f a).exec answer := by
  induction p with
  | ret a => rfl
  | fault e => rfl
  | call c k ih =>
    have hcall : (call c k >>= f).exec answer =
        answer c >>= fun r => ((k r) >>= f).exec answer := rfl
    rw [hcall, exec, bind_assoc]
    simp only [ih]

/-! ### Weakest preconditions -/

section Wp

variable (pre : ι → Prop) (spec : ∀ c, ρ c → Prop) (fails : Prop)

/-- All calls meet `pre`, and with answers that meet `spec` the result meets `post`. A fault needs
`fails`. -/
def wp : Prog ρ α → (α → Prop) → Prop
  | ret a, post => post a
  | fault _, _ => fails
  | call c k, post => pre c ∧ ∀ r, spec c r → (k r).wp post

variable {pre spec fails}

@[simp] theorem wp_pure {a : α} {post : α → Prop} :
    (pure a : Prog ρ α).wp pre spec fails post ↔ post a := Iff.rfl

@[simp] theorem wp_bind {p : Prog ρ α} {f : α → Prog ρ β} {post : β → Prop} :
    (p >>= f).wp pre spec fails post ↔
      p.wp pre spec fails fun a => (f a).wp pre spec fails post := by
  induction p with
  | ret a => exact Iff.rfl
  | fault e => exact Iff.rfl
  | call c k ih =>
    exact and_congr_right fun _ => forall_congr' fun r => imp_congr_right fun _ => ih r

theorem wp_mono {p : Prog ρ α} {post post' : α → Prop} (h : ∀ a, post a → post' a)
    (hp : p.wp pre spec fails post) : p.wp pre spec fails post' := by
  induction p with
  | ret a => exact h a hp
  | fault e => exact hp
  | call c k ih => exact ⟨hp.1, fun r hr => ih r (hp.2 r hr)⟩

end Wp

/-- The calls a program makes, when the answers are as `spec` says. -/
def Makes (spec : ∀ c, ρ c → Prop) : Prog ρ α → ι → Prop
  | ret _, _ => False
  | fault _, _ => False
  | call c k, d => d = c ∨ ∃ r, spec c r ∧ (k r).Makes spec d

end Prog

/-! ### Bodies -/

section Bodies

variable {ι : Type} {ρ : ι → Type} {α : Type} (body : ∀ c, Prog ρ (ρ c))

/-- The answer of a call, with calls up to a depth. -/
def eval : Nat → ∀ c, Exec (ρ c)
  | 0, _ => .error .diverge
  | depth + 1, c => (body c).exec (eval depth)

/-- The call returns. -/
def Answers (c : ι) (r : ρ c) : Prop := ∃ depth, eval body depth c = .ok r

/-- A call is made, directly or not. -/
def Reached : ι → ι → Prop := ReflTransGen fun c d => (body c).Makes (Answers body) d

variable {body}

theorem exec_mono {answer answer' : ∀ c, Exec (ρ c)}
    (h : ∀ c r, answer c = .ok r → answer' c = .ok r) {p : Prog ρ α} {a : α}
    (hp : p.exec answer = .ok a) : p.exec answer' = .ok a := by
  induction p with
  | ret b => exact hp
  | fault e => cases hp
  | call c k ih =>
    obtain ⟨r, hr, hk⟩ := bind_eq_ok_iff.mp hp
    exact bind_eq_ok_iff.mpr ⟨r, h c r hr, ih r hk⟩

theorem eval_succ {depth : Nat} {c : ι} {r : ρ c} (h : eval body depth c = .ok r) :
    eval body (depth + 1) c = .ok r := by
  induction depth generalizing c with
  | zero => cases h
  | succ depth ih => exact exec_mono (fun _ _ => ih) h

theorem eval_mono {depth depth' : Nat} (hle : depth ≤ depth') {c : ι} {r : ρ c}
    (h : eval body depth c = .ok r) : eval body depth' c = .ok r := by
  induction hle with
  | refl => exact h
  | step _ ih => exact eval_succ ih

theorem Answers.unique {c : ι} {r r' : ρ c} (h : Answers body c r) (h' : Answers body c r') :
    r = r' := by
  obtain ⟨depth, h⟩ := h
  obtain ⟨depth', h'⟩ := h'
  have hr := eval_mono (Nat.le_max_left depth depth') h
  have hr' := eval_mono (Nat.le_max_right depth depth') h'
  exact Except.ok.inj (hr.symm.trans hr')

/-- The rule for recursive procedures: what every body guarantees when it is assumed of the
answers it gets. -/
theorem answers_of_wp {spec : ∀ c, ρ c → Prop}
    (h : ∀ c, (body c).wp (fun _ => True) spec True (spec c)) {c : ι} {r : ρ c}
    (hr : Answers body c r) : spec c r := by
  have hexec : ∀ {α : Type} {answer : ∀ c, Exec (ρ c)},
      (∀ c r, answer c = .ok r → spec c r) → ∀ {p : Prog ρ α} {post : α → Prop} {a : α},
        p.wp (fun _ => True) spec True post → p.exec answer = .ok a → post a := by
    intro α answer hspec p post a hwp hp
    induction p with
    | ret b =>
      obtain rfl := Except.ok.inj hp
      exact hwp
    | fault e => cases hp
    | call c k ih =>
      obtain ⟨r, hr, hk⟩ := bind_eq_ok_iff.mp hp
      exact ih r (hwp.2 r (hspec c r hr)) hk
  obtain ⟨depth, hr⟩ := hr
  induction depth generalizing c with
  | zero => cases hr
  | succ depth ih => exact hexec (fun _ _ => ih) (h c) hr

/-- A program that returned has had an answer to every call it made. -/
theorem answered_of_exec {depth : Nat} {p : Prog ρ α} {a : α}
    (h : p.exec (eval body depth) = .ok a) {d : ι} (hd : p.Makes (Answers body) d) :
    ∃ r, Answers body d r := by
  induction p with
  | ret b => exact hd.elim
  | fault e => exact hd.elim
  | call c k ih =>
    obtain ⟨r, hr, hk⟩ := bind_eq_ok_iff.mp h
    obtain rfl | ⟨r', hr', hd⟩ := hd
    · exact ⟨r, depth, hr⟩
    · obtain rfl := Answers.unique ⟨depth, hr⟩ hr'
      exact ih r hk hd

/-- A program without faults returns when its calls are answered. -/
theorem exec_of_answered {pre : ι → Prop} {p : Prog ρ α} {post : α → Prop}
    (h : p.wp pre (Answers body) False post)
    (hcalls : ∀ d, pre d → p.Makes (Answers body) d → ∃ r, Answers body d r) :
    ∃ depth a, p.exec (eval body depth) = .ok a := by
  induction p with
  | ret a => exact ⟨0, a, rfl⟩
  | fault e => exact h.elim
  | call c k ih =>
    obtain ⟨r, hr⟩ := hcalls c h.1 (Or.inl rfl)
    obtain ⟨depth, a, hk⟩ := ih r (h.2 r hr) fun d hpre hd => hcalls d hpre (Or.inr ⟨r, hr, hd⟩)
    obtain ⟨depth', hr⟩ := hr
    refine ⟨max depth depth', a, bind_eq_ok_iff.mpr ⟨r, ?_, ?_⟩⟩
    · exact eval_mono (Nat.le_max_right depth depth') hr
    · exact exec_mono (fun _ _ => eval_mono (Nat.le_max_left depth depth')) hk

theorem answered_of_reached {c d : ι} (h : ∃ r, Answers body c r) (hreach : Reached body c d) :
    ∃ r, Answers body d r := by
  induction hreach with
  | refl => exact h
  | tail _ hmakes ih =>
    obtain ⟨r, depth, hr⟩ := ih
    cases depth with
    | zero => cases hr
    | succ depth => exact answered_of_exec hr hmakes

/-- When the stuck calls are never answered, and the others do not fault and only make calls with
a smaller measure, a call is answered exactly when no stuck one is reached from it. -/
theorem answers_iff {stuck : ι → Prop} (measure : ι → Nat)
    (hstuck : ∀ c r, stuck c → ¬ Answers body c r)
    (hmoves : ∀ c, ¬ stuck c →
      (body c).wp (fun d => measure d < measure c) (Answers body) False fun _ => True) (c : ι) :
    (∃ r, Answers body c r) ↔ ∀ d, Reached body c d → ¬ stuck d := by
  constructor
  · intro hanswer d hreach hd
    obtain ⟨r, hr⟩ := answered_of_reached hanswer hreach
    exact hstuck d r hd hr
  · intro hfree
    induction hm : measure c using Nat.strongRecOn generalizing c with
    | _ n ih =>
      subst hm
      obtain ⟨depth, r, hr⟩ := exec_of_answered (hmoves c (hfree c .refl)) fun d hlt hmakes =>
        ih (measure d) hlt d (fun e he => hfree e (.head hmakes he)) rfl
      exact ⟨r, depth + 1, hr⟩

end Bodies

end MerlionKernel.Theory
