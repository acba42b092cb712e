import Mathlib.Logic.Relation
import MerlionKernel.Rust.Exec

/-!
# Machines

A machine repeats a round on its state until a round leaves the loop or stops with a fault. When
the rounds lower a measure the machine does one of the two, in a state that it reaches from the
first one; so everything that is known of the states reached is known where it ends.
-/

namespace MerlionKernel.Theory

open Rust

universe u

variable {σ β : Type u} {round : σ → Exec (ControlFlow σ β)}

/-- Some rounds lead from one state to the other. -/
def Reaches (round : σ → Exec (ControlFlow σ β)) : σ → σ → Prop :=
  Relation.ReflTransGen fun s s' => round s = .ok (.again s')

theorem Reaches.refl (s : σ) : Reaches round s s := Relation.ReflTransGen.refl

theorem Reaches.head {s s' t : σ} (h : round s = .ok (.again s')) (hreach : Reaches round s' t) :
    Reaches round s t :=
  Relation.ReflTransGen.head h hreach

/-- A machine whose rounds go on with an invariant kept and a measure lowered, until one is final,
reaches a final state, and ends as the round of that state does. -/
theorem loop_final (inv final : σ → Prop) (measure : σ → Nat)
    (hround : ∀ s, inv s →
      (∃ s', round s = .ok (.again s') ∧ inv s' ∧ measure s' < measure s) ∨ final s)
    {fuel : Nat} {s : σ} (hs : inv s) (hfuel : measure s < fuel) :
    ∃ t, Reaches round s t ∧ inv t ∧ final t ∧
      (∀ b, round t = .ok (.stop b) → loop round fuel s = .ok b) ∧
      ∀ e, round t = .error e → loop round fuel s = .error e := by
  induction fuel generalizing s with
  | zero => exact absurd hfuel (Nat.not_lt_zero _)
  | succ fuel ih =>
    obtain ⟨s', hgo, hinv, hlower⟩ | hfinal := hround s hs
    · obtain ⟨t, hreach, ht, hfinal, hstop, hfault⟩ := ih hinv (by omega)
      rw [loop_again hgo]
      exact ⟨t, .head hgo hreach, ht, hfinal, hstop, hfault⟩
    · refine ⟨s, .refl s, hs, hfinal, fun b hb => loop_stop hb fuel, fun e he => ?_⟩
      rw [loop, he]
      rfl

end MerlionKernel.Theory
