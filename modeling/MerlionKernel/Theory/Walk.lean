import Mathlib.Data.Finset.Card
import Mathlib.Logic.Relation

/-!
# Walks that may come back

A walk goes from place to place as `next` says, until `next` gives no place. It never ends
if it comes back to a place where it has been. If it does not, and there are only finitely
many places from which it can go on, then fewer and fewer of them are ahead of it, and it
ends.
-/

namespace MerlionKernel.Theory

open Relation

variable {α : Type*} {next : α → Option α} {a b c : α}

/-- The walk goes from `a` to `b` in one step. -/
def Follows (next : α → Option α) (a b : α) : Prop := next a = some b

/-- The walk from `a` comes to a place from which it comes back to this place. -/
def Circles (next : α → Option α) (a : α) : Prop :=
  ∃ b, ReflTransGen (Follows next) a b ∧ TransGen (Follows next) b b

theorem Follows.eq (h : Follows next a b) (h' : Follows next a c) : b = c :=
  Option.some.inj (h.symm.trans h')

/-- A place that a walk comes to from `a` lies on the way from the place behind `a`. -/
theorem Follows.reaches (h : Follows next a b) (hac : TransGen (Follows next) a c) :
    ReflTransGen (Follows next) b c := by
  obtain ⟨b', hab', hbc⟩ := TransGen.head'_iff.mp hac
  rwa [h.eq hab']

theorem Circles.of_follows (h : Follows next a b) (hb : Circles next b) : Circles next a := by
  obtain ⟨c, hbc, hcycle⟩ := hb
  exact ⟨c, .head h hbc, hcycle⟩

/-- A walk that circles goes on, and still circles. -/
theorem Circles.exists_follows (ha : Circles next a) :
    ∃ b, Follows next a b ∧ Circles next b := by
  obtain ⟨c, hac, hcycle⟩ := ha
  rcases ReflTransGen.cases_head hac with rfl | ⟨b, hab, hbc⟩
  · -- The walk is on its circle already, and the next place is on it too.
    obtain ⟨b, hab, -⟩ := TransGen.head'_iff.mp hcycle
    have hback : ReflTransGen (Follows next) b a := hab.reaches hcycle
    exact ⟨b, hab, b, .refl, TransGen.tail' hback hab⟩
  · exact ⟨b, hab, c, hbc, hcycle⟩

theorem circles_iff_of_follows (h : Follows next a b) : Circles next a ↔ Circles next b := by
  refine ⟨fun ha => ?_, .of_follows h⟩
  obtain ⟨c, hac, hc⟩ := ha.exists_follows
  rwa [h.eq hac]

theorem not_circles_of_none (h : next a = none) : ¬ Circles next a := by
  intro ha
  obtain ⟨b, hab, -⟩ := ha.exists_follows
  cases h.symm.trans hab

open Classical in
/-- The places that the walk from `a` comes to. -/
noncomputable def ahead (places : Finset α) (next : α → Option α) (a : α) : Finset α :=
  places.filter (ReflTransGen (Follows next) a)

theorem card_ahead_le (places : Finset α) (next : α → Option α) (a : α) :
    (ahead places next a).card ≤ places.card := by
  classical
  exact Finset.card_filter_le _ _

/-- Each step of a walk that does not circle leaves fewer places ahead. -/
theorem card_ahead_lt {places : Finset α} (hplace : a ∈ places) (h : Follows next a b)
    (ha : ¬ Circles next a) : (ahead places next b).card < (ahead places next a).card := by
  classical
  apply Finset.card_lt_card
  rw [Finset.ssubset_iff_of_subset]
  · -- `a` itself is the place that is left behind.
    refine ⟨a, ?_, fun hback => ?_⟩
    · simp [ahead, hplace, ReflTransGen.refl]
    · have hba : ReflTransGen (Follows next) b a := (Finset.mem_filter.mp hback).2
      exact ha ⟨a, .refl, TransGen.head' h hba⟩
  · intro c hc
    obtain ⟨hmem, hbc⟩ := Finset.mem_filter.mp hc
    exact Finset.mem_filter.mpr ⟨hmem, .head h hbc⟩

end MerlionKernel.Theory
