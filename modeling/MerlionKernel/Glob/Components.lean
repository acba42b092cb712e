import Mathlib.Data.List.Infix
import MerlionKernel.Glob.Language

/-!
# Whole components

`**/` is meant for any number of path components. The matcher tries the rest of the pattern at
every byte behind the prefix, so it also finds a match that starts inside a component, and it does
not look at all when the text ends with the slash of the prefix.
-/

namespace MerlionKernel.Glob

open Rust

/-- A byte of a pattern that stands for itself. -/
def Literal (b : UInt8) : Prop := b ≠ star ∧ b ≠ question ∧ b ≠ bracket

section

variable {inner inner' : Bytes → Bytes → Bool} {pat txt q r : Bytes}

theorem afterDouble_literal {b : UInt8} (hb : Literal b) (pat : Bytes) :
    afterDouble (b :: pat) = none := by
  cases pat with
  | nil => rfl
  | cons p rest => exact if_neg fun h => hb.1 h.1

theorem consume_literal {b : UInt8} (hb : Literal b) (pat : Bytes) (c : UInt8) :
    consume (b :: pat) c = if b = c then some pat else none := by
  unfold consume
  dsimp only
  rw [if_neg fun h => hb.2.1 h.1, if_neg hb.2.2]

/-- The loop passes a prefix without wildcards. -/
theorem matchLoop_append_iff (hq : ∀ b ∈ q, Literal b) :
    matchLoop inner (q ++ pat) txt none = true ↔
      ∃ u, txt = q ++ u ∧ matchLoop inner pat u none = true := by
  induction q generalizing txt with
  | nil => simp
  | cons b q ih =>
    obtain ⟨hb, hq⟩ := List.forall_mem_cons.mp hq
    have hstar : (b :: (q ++ pat)).head? ≠ some star := fun h => hb.1 (Option.some.inj h)
    cases txt with
    | nil =>
      refine iff_of_false ?_ nofun
      rw [List.cons_append, matchLoop, List.dropWhile_cons, if_neg (mt beq_iff_eq.mp hb.1)]
      exact Bool.false_ne_true
    | cons c txt =>
      rw [List.cons_append, matchLoop, afterDouble_literal hb]
      simp only [if_neg hstar, consume_literal hb]
      by_cases hc : b = c
      · subst hc
        simp only [if_pos]
        refine (ih hq).trans ⟨?_, ?_⟩
        · rintro ⟨u, rfl, hu⟩
          exact ⟨u, rfl, hu⟩
        · rintro ⟨u, heq, hu⟩
          cases heq
          exact ⟨u, rfl, hu⟩
      · simp only [if_neg hc]
        refine iff_of_false Bool.false_ne_true ?_
        rintro ⟨u, heq, -⟩
        cases heq
        exact hc rfl

theorem matchLoop_nil_iff : matchLoop inner [] txt none = true ↔ txt = [] := by
  rw [matchLoop.eq_def]
  cases txt with
  | nil => exact iff_of_true rfl rfl
  | cons c txt => exact iff_of_false Bool.false_ne_true (List.cons_ne_nil _ _)

/-- A pattern without wildcards matches itself. -/
theorem globMatch_literal_iff (hq : ∀ b ∈ q, Literal b) : globMatch q txt = true ↔ txt = q := by
  rw [globMatch, matchRecursive, ← List.append_nil q, matchLoop_append_iff (by simpa using hq)]
  simp [matchLoop_nil_iff]

/-- Without a double star the loop does not call itself. -/
theorem matchLoop_inner {last : Option (Bytes × Bytes)} (hpat : NoDouble pat)
    (hlast : ∀ p seen, last = some (p, seen) → NoDouble p) :
    matchLoop inner pat txt last = matchLoop inner' pat txt last := by
  fun_induction matchLoop inner pat txt last with
  | case1 pat last => rw [matchLoop]
  | case2 pat last c txt rest hdouble =>
    rw [hpat.afterDouble_eq] at hdouble
    cases hdouble
  | case3 pat last c txt hdouble hstar ih =>
    have htail : NoDouble pat.tail := hpat.of_suffix (List.tail_suffix _)
    rw [ih htail fun p seen heq => by cases heq; exact htail]
    conv_rhs => rw [matchLoop.eq_def]
    simp only [hdouble, if_pos hstar]
  | case4 pat last c txt hdouble hstar pat' hconsume ih =>
    rw [ih (hpat.of_suffix (of_consume hconsume hstar).1) ?_]
    · conv_rhs => rw [matchLoop.eq_def]
      simp only [hdouble, if_neg hstar, hconsume]
    · intro p seen heq
      obtain ⟨⟨p', seen'⟩, hlast', heq⟩ := Option.map_eq_some_iff.mp heq
      cases heq
      exact hlast _ _ hlast'
  | case5 pat c txt hdouble hstar hconsume =>
    rw [matchLoop]
    simp only [hdouble, if_neg hstar, hconsume]
  | case6 pat c txt hdouble hstar hconsume p seen hslash =>
    rw [matchLoop]
    simp only [hdouble, if_neg hstar, hconsume, if_pos hslash]
  | case7 pat c txt hdouble hstar hconsume p seen hslash ih =>
    have hp : NoDouble p := hlast _ _ rfl
    rw [ih hp fun p' seen' heq => by cases heq; exact hp]
    conv_rhs => rw [matchLoop.eq_def]
    simp only [hdouble, if_neg hstar, hconsume, if_neg hslash]

theorem matchRecursive_eq_globMatch (hr : NoDouble r) (depth : Nat) :
    matchRecursive (depth + 1) r txt = globMatch r txt :=
  matchLoop_inner hr nofun

/-- The loop at `**/`. -/
theorem matchLoop_double_iff :
    matchLoop inner (star :: star :: slash :: r) txt none = true ↔
      txt ≠ [] ∧ ∃ x y, txt = x ++ y ∧ inner r y = true := by
  cases txt with
  | nil =>
    refine iff_of_false ?_ fun h => h.1 rfl
    rw [matchLoop]
    exact Bool.false_ne_true
  | cons c txt =>
    have hdouble : afterDouble (star :: star :: slash :: r) = some r := rfl
    rw [matchLoop]
    simp only [hdouble, List.any_eq_true, List.mem_tails]
    constructor
    · rintro ⟨y, ⟨x, hx⟩, hy⟩
      exact ⟨List.cons_ne_nil _ _, x, y, hx.symm, hy⟩
    · rintro ⟨-, x, y, hxy, hy⟩
      exact ⟨y, ⟨x, hxy.symm⟩, hy⟩

end

/-- What `q/**/r` does match. -/
theorem globMatch_double_iff {q r t : Bytes} (hq : ∀ b ∈ q, Literal b) (hr : NoDouble r) :
    globMatch (q ++ [slash, star, star, slash] ++ r) t = true ↔
      ∃ u, t = q ++ [slash] ++ u ∧ u ≠ [] ∧ ∃ x y, u = x ++ y ∧ globMatch r y = true := by
  have hprefix : ∀ b ∈ q ++ [slash], Literal b := by
    intro b hb
    rcases List.mem_append.mp hb with hb | hb
    · exact hq b hb
    · rw [List.mem_singleton.mp hb]
      exact ⟨by decide, by decide, by decide⟩
  have hpattern : q ++ [slash, star, star, slash] ++ r =
      (q ++ [slash]) ++ star :: star :: slash :: r := by simp
  have hlength : (q ++ [slash, star, star, slash] ++ r).length = (q.length + r.length + 3) + 1 := by
    simp
    omega
  rw [globMatch, hlength, matchRecursive, hpattern, matchLoop_append_iff hprefix]
  refine exists_congr fun u => and_congr_right fun _ => ?_
  rw [matchLoop_double_iff]
  refine and_congr_right fun _ => exists_congr fun x => exists_congr fun y => ?_
  rw [matchRecursive_eq_globMatch hr]

/-- The rest of the pattern matches from the start of a component on. -/
def MatchesComponents (r u : Bytes) : Prop :=
  globMatch r u = true ∨ ∃ x y, u = x ++ [slash] ++ y ∧ globMatch r y = true

/-- `**/` stands for whole components exactly if the text does not end there, or the rest of the
pattern does not match nothing, and nothing is found only inside a component. -/
theorem globMatch_components_iff {q r t : Bytes} (hq : ∀ b ∈ q, Literal b) (hr : NoDouble r) :
    (globMatch (q ++ [slash, star, star, slash] ++ r) t = true ↔
        ∃ u, t = q ++ [slash] ++ u ∧ MatchesComponents r u) ↔
      ∀ u, t = q ++ [slash] ++ u →
        (u = [] → globMatch r [] = false) ∧
        (u ≠ [] → ∀ x y, u = x ++ y → globMatch r y = true → MatchesComponents r u) := by
  rw [globMatch_double_iff hq hr]
  -- There is one `u` at most.
  by_cases ht : ∃ u, t = q ++ [slash] ++ u
  · obtain ⟨u, rfl⟩ := ht
    have honly : ∀ {P : Bytes → Prop},
        (∃ u', q ++ [slash] ++ u = q ++ [slash] ++ u' ∧ P u') ↔ P u := by
      intro P
      constructor
      · rintro ⟨u', heq, hu'⟩
        rwa [List.append_cancel_left heq]
      · exact fun hu => ⟨u, rfl, hu⟩
    have hall : ∀ {P : Bytes → Prop},
        (∀ u', q ++ [slash] ++ u = q ++ [slash] ++ u' → P u') ↔ P u := by
      intro P
      constructor
      · exact fun h => h u rfl
      · intro hu u' heq
        rwa [← List.append_cancel_left heq]
    rw [honly, honly, hall]
    constructor
    · intro h
      refine ⟨?_, fun hu x y hxy hy => h.mp ⟨hu, x, y, hxy, hy⟩⟩
      rintro rfl
      rw [← Bool.not_eq_true]
      exact fun hmatch => (h.mpr (.inl hmatch)).1 rfl
    · rintro ⟨hempty, hinside⟩
      constructor
      · rintro ⟨hu, x, y, hxy, hy⟩
        exact hinside hu x y hxy hy
      · rintro (hmatch | ⟨x, y, rfl, hy⟩)
        · refine ⟨?_, [], u, rfl, hmatch⟩
          rintro rfl
          rw [hempty rfl] at hmatch
          cases hmatch
        · exact ⟨by simp, x ++ [slash], y, rfl, hy⟩
  · refine iff_of_true (iff_of_false ?_ ?_) fun u hu => (ht ⟨u, hu⟩).elim
    · exact fun h => ht (h.imp fun u hu => hu.1)
    · exact fun h => ht (h.imp fun u hu => hu.1)

/-- The letters `a` and `b`. -/
theorem literal_letter : Literal 97 ∧ Literal 98 := by
  unfold Literal
  decide

theorem globMatch_components_iff_file :
    (globMatch ([97] ++ [slash, star, star, slash] ++ [98]) [97, slash, 98] = true ↔
        ∃ u, [97, slash, 98] = [97] ++ [slash] ++ u ∧ MatchesComponents [98] u) ↔
      ∀ u, [97, slash, 98] = [97] ++ [slash] ++ u →
        (u = [] → globMatch [98] [] = false) ∧
        (u ≠ [] → ∀ x y, u = x ++ y → globMatch [98] y = true → MatchesComponents [98] u) :=
  globMatch_components_iff (List.forall_mem_singleton.mpr literal_letter.1)
    fun h => absurd h.length_le (by decide)

/-- `a/**/b` matches `a/xb`, although `b` matches neither `xb` nor a component of it. -/
theorem globMatch_inside_component :
    globMatch ([97] ++ [slash, star, star, slash] ++ [98]) [97, slash, 120, 98] = true ∧
      ¬ ∃ u, [97, slash, 120, 98] = [97] ++ [slash] ++ u ∧ MatchesComponents [98] u := by
  have hb : ∀ y, globMatch [98] y = true ↔ y = [98] := fun y =>
    globMatch_literal_iff (List.forall_mem_singleton.mpr literal_letter.2)
  refine ⟨?_, ?_⟩
  · rw [globMatch_double_iff (List.forall_mem_singleton.mpr literal_letter.1)
      fun h => absurd h.length_le (by decide)]
    exact ⟨[120, 98], rfl, List.cons_ne_nil _ _, [120], [98], rfl, (hb _).mpr rfl⟩
  · rintro ⟨u, heq, hu | ⟨x, y, rfl, -⟩⟩
    · cases heq
      cases (hb _).mp hu
    · have hxy : [120, 98] = x ++ [slash] ++ y :=
        List.append_cancel_left (show [97, slash] ++ _ = [97, slash] ++ _ from heq)
      have hslash : slash ∈ [120, 98] := by
        rw [hxy]
        simp
      revert hslash
      decide

end MerlionKernel.Glob
