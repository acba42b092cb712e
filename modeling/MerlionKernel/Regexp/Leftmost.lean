import MerlionKernel.Regexp.Model
import MerlionKernel.Rust.Find

/-!
# The leftmost match

The pieces of a pattern without `|` are matched against single characters, and this makes the first
success of the backtracker a longest one. Whatever other match there is, of the pieces or of the
last of them, it cannot run on behind the place where the first success ends: a piece of it that
takes the next character was either given up by the backtracker for good, or is still to come.
So the check for `$` after the first success misses nothing.
-/

namespace MerlionKernel.Regexp

open Rust

/-- The quantifier allows so many repetitions. -/
def Quantifier.Allows : Quantifier → Nat → Prop
  | .one, n => n = 1
  | .zeroOrMore, _ => True
  | .oneOrMore, n => 1 ≤ n
  | .zeroOrOne, n => n ≤ 1

/-- The characters are a repetition of the piece's node that the quantifier allows. -/
def Piece.Takes (p : Piece) (u : List Char) : Prop :=
  (∀ c ∈ u, nodeMatches p.node c = true) ∧ p.quantifier.Allows u.length

/-- The text is a concatenation of matches of the pieces. -/
def Matches : List Piece → List Char → Prop
  | [], w => w = []
  | p :: ps, w => ∃ u v, w = u ++ v ∧ p.Takes u ∧ Matches ps v

/-! ### One piece -/

/-- Of the repetitions that the piece allows, the longest is taken behind which `next` succeeds. -/
def Longest (p : Piece) (next : List Char → Option (List Char)) (text left : List Char) : Prop :=
  ∃ u s, text = u ++ s ∧ p.Takes u ∧ next s = some left ∧
    ∀ u' s', text = u' ++ s' → p.Takes u' → u.length < u'.length → next s' = none

/-- The result of trying the repetitions: the longest that leads to a success, and a failure only
if none does. -/
def Tried (p : Piece) (next : List Char → Option (List Char)) (text : List Char)
    (result : Option (List Char)) : Prop :=
  (∀ r, result = some r → Longest p next text r) ∧
    (result = none → ∀ u s, text = u ++ s → p.Takes u → next s = none)

section Piece

variable {p : Piece} {next : List Char → Option (List Char)} {text left : List Char}

/-- A repetition is no longer than the run of matching characters. -/
theorem length_le_takeWhile {u s : List Char} (hu : ∀ c ∈ u, nodeMatches p.node c = true) :
    u.length ≤ ((u ++ s).takeWhile (nodeMatches p.node)).length := by
  rw [List.takeWhile_append_of_pos hu, List.length_append]
  exact Nat.le_add_right _ _

/-- The loop over the repetitions. -/
theorem longestFirst_spec {least : Nat} (hallows : ∀ n, p.quantifier.Allows n ↔ least ≤ n) :
    Tried p next text
      (longestFirst next text least (text.takeWhile (nodeMatches p.node)).length) := by
  have hmem : ∀ k, k ∈ (List.range' least ((text.takeWhile (nodeMatches p.node)).length + 1 -
      least)).reverse ↔ least ≤ k ∧ k ≤ (text.takeWhile (nodeMatches p.node)).length := by
    intro k
    rw [List.mem_reverse, List.mem_range'_1]
    omega
  constructor
  · intro r hr
    -- The numbers are tried in descending order.
    obtain ⟨k, hk, hnext, hlater⟩ := exists_of_findSome?_pairwise
      (List.pairwise_reverse.mpr (List.pairwise_lt_range' 1 Nat.one_pos)) hr
    obtain ⟨hk, hk'⟩ := (hmem k).mp hk
    have hle : k ≤ text.length := hk'.trans (List.takeWhile_prefix _).length_le
    have htake : text.take k <+: text.takeWhile (nodeMatches p.node) :=
      List.prefix_of_prefix_length_le (List.take_prefix _ _) (List.takeWhile_prefix _)
        (by rw [List.length_take]; omega)
    refine ⟨text.take k, text.drop k, (List.take_append_drop _ _).symm, ⟨fun c hc => ?_, ?_⟩,
      hnext, fun u' s' heq hu' hlt => ?_⟩
    · exact List.all_eq_true.mp List.all_takeWhile c (htake.subset hc)
    · rw [hallows, List.length_take]
      omega
    · subst heq
      have hmost := length_le_takeWhile (s := s') hu'.1
      rw [List.length_take] at hlt
      have hnone := hlater u'.length ((hmem _).mpr ⟨(hallows _).mp hu'.2, hmost⟩) (by omega)
        (by omega)
      rwa [List.drop_left] at hnone
  · rintro h u s rfl hu
    have hmost := length_le_takeWhile (s := s) hu.1
    have hnext := List.findSome?_eq_none_iff.mp h u.length
      ((hmem _).mpr ⟨(hallows _).mp hu.2, hmost⟩)
    rwa [List.drop_left] at hnext

theorem eq_of_length_le_one {c : Char} {t u s : List Char} (heq : c :: t = u ++ s)
    (hlen : u.length ≤ 1) : u = [] ∧ s = c :: t ∨ u = [c] ∧ s = t := by
  cases u with
  | nil => exact .inl ⟨rfl, heq.symm⟩
  | cons d u =>
    cases List.length_eq_zero_iff.mp (Nat.le_zero.mp (Nat.le_of_succ_le_succ hlen))
    cases heq
    exact .inr ⟨rfl, rfl⟩

theorem one_spec (hq : p.quantifier = .one) : Tried p next text (quantified p next text) := by
  unfold quantified
  simp only [hq]
  have hlen : ∀ {u}, p.Takes u → u.length = 1 := fun hu => by
    have hallows := hu.2
    rwa [hq] at hallows
  cases text with
  | nil =>
    refine ⟨nofun, fun _ u s heq hu => ?_⟩
    cases (List.append_eq_nil_iff.mp heq.symm).1
    cases hlen hu
  | cons c text =>
    by_cases hc : nodeMatches p.node c = true
    · have htakes : p.Takes [c] := ⟨List.forall_mem_singleton.mpr hc, by rw [hq]; rfl⟩
      simp only [if_pos hc]
      refine ⟨fun r hr => ⟨[c], text, rfl, htakes, hr, fun u' s' _ hu' hlt => ?_⟩,
        fun hnone u s heq hu => ?_⟩
      · exact absurd hlt (by rw [hlen hu']; exact Nat.lt_irrefl 1)
      · rcases eq_of_length_le_one heq (hlen hu).le with ⟨rfl, rfl⟩ | ⟨rfl, rfl⟩
        · cases hlen hu
        · exact hnone
    · simp only [if_neg hc]
      refine ⟨nofun, fun _ u s heq hu => ?_⟩
      rcases eq_of_length_le_one heq (hlen hu).le with ⟨rfl, rfl⟩ | ⟨rfl, rfl⟩
      · cases hlen hu
      · exact absurd (hu.1 c (List.mem_singleton_self c)) hc

theorem zeroOrOne_spec (hq : p.quantifier = .zeroOrOne) :
    Tried p next text (quantified p next text) := by
  unfold quantified
  simp only [hq]
  have hlen : ∀ {u}, p.Takes u → u.length ≤ 1 := fun hu => by
    have hallows := hu.2
    rwa [hq] at hallows
  have hempty : p.Takes [] := ⟨List.forall_mem_nil _, by rw [hq]; exact Nat.zero_le 1⟩
  cases text with
  | nil =>
    refine ⟨fun r hr => ⟨[], [], rfl, hempty, hr, fun u' s' heq _ hlt => ?_⟩,
      fun hnone u s heq _ => ?_⟩
    · cases (List.append_eq_nil_iff.mp heq.symm).1
      cases hlt
    · cases (List.append_eq_nil_iff.mp heq.symm).2
      exact hnone
  | cons c text =>
    by_cases hc : nodeMatches p.node c = true
    · have htakes : p.Takes [c] := ⟨List.forall_mem_singleton.mpr hc, by rw [hq]; exact le_rfl⟩
      simp only [if_pos hc]
      cases hnext : next text with
      | some r' =>
        refine ⟨fun r hr => ⟨[c], text, rfl, htakes, hnext.trans hr, ?_⟩, nofun⟩
        exact fun u' s' _ hu' hlt => absurd (hlen hu') (not_le.mpr hlt)
      | none =>
        refine ⟨fun r hr => ⟨[], c :: text, rfl, hempty, hr, fun u' s' heq hu' hlt => ?_⟩,
          fun hnone u s heq hu => ?_⟩
        · rcases eq_of_length_le_one heq (hlen hu') with ⟨rfl, rfl⟩ | ⟨rfl, rfl⟩
          · cases hlt
          · exact hnext
        · rcases eq_of_length_le_one heq (hlen hu) with ⟨rfl, rfl⟩ | ⟨rfl, rfl⟩
          · exact hnone
          · exact hnext
    · have hskip : ∀ {u s}, c :: text = u ++ s → p.Takes u → u = [] ∧ s = c :: text := by
        intro u s heq hu
        rcases eq_of_length_le_one heq (hlen hu) with h | ⟨rfl, rfl⟩
        · exact h
        · exact absurd (hu.1 c (List.mem_singleton_self c)) hc
      simp only [if_neg hc]
      refine ⟨fun r hr => ⟨[], c :: text, rfl, hempty, hr, fun u' s' heq hu' hlt => ?_⟩,
        fun hnone u s heq hu => ?_⟩
      · obtain ⟨rfl, -⟩ := hskip heq hu'
        cases hlt
      · obtain ⟨-, rfl⟩ := hskip heq hu
        exact hnone

theorem oneOrMore_spec (hq : p.quantifier = .oneOrMore) :
    Tried p next text (quantified p next text) := by
  have hspec := @longestFirst_spec p next text 1 fun n => by simp [hq, Quantifier.Allows]
  unfold quantified
  simp only [hq]
  by_cases hcount : (text.takeWhile (nodeMatches p.node)).length = 0
  · rw [if_pos hcount]
    refine ⟨nofun, ?_⟩
    rintro - u s rfl ⟨hu, hallows⟩
    have hmost := length_le_takeWhile (s := s) hu
    rw [hq] at hallows
    exact absurd hallows (by simp only [Quantifier.Allows]; omega)
  · rw [if_neg hcount]
    exact hspec

/-- What the matcher does at a piece. -/
theorem quantified_spec : Tried p next text (quantified p next text) := by
  cases hq : p.quantifier with
  | one => exact one_spec hq
  | zeroOrMore =>
    have hspec := @longestFirst_spec p next text 0 fun n => by simp [hq, Quantifier.Allows]
    unfold quantified
    simp only [hq]
    exact hspec
  | oneOrMore => exact oneOrMore_spec hq
  | zeroOrOne => exact zeroOrOne_spec hq

end Piece

/-! ### The backtracker -/

section Backtrack

variable {p : Piece} {ps : List Piece} {text left : List Char}

theorem backtrack_cons (hp : p.node.Simple) :
    backtrack (p :: ps) text = quantified p (backtrack ps) text := by
  rw [backtrack]
  split
  · next hnode =>
    rw [hnode] at hp
    exact hp.elim
  · rfl

/-- A success is a match. -/
theorem matches_of_backtrack (hps : ∀ p ∈ ps, p.node.Simple) (h : backtrack ps text = some left) :
    ∃ w, text = w ++ left ∧ Matches ps w := by
  induction ps generalizing text with
  | nil =>
    rw [backtrack] at h
    cases h
    exact ⟨[], rfl, rfl⟩
  | cons p ps ih =>
    obtain ⟨hp, hps⟩ := List.forall_mem_cons.mp hps
    rw [backtrack_cons hp] at h
    obtain ⟨u, s, rfl, hu, hnext, -⟩ := quantified_spec.1 _ h
    obtain ⟨w, rfl, hw⟩ := ih hps hnext
    exact ⟨u ++ w, (List.append_assoc _ _ _).symm, u, w, rfl, hu, hw⟩

/-- Where there is a match, the backtracker succeeds. -/
theorem backtrack_ne_none (hps : ∀ p ∈ ps, p.node.Simple) {w r : List Char} (hw : Matches ps w) :
    backtrack ps (w ++ r) ≠ none := by
  induction ps generalizing w with
  | nil =>
    rw [backtrack]
    exact Option.some_ne_none _
  | cons p ps ih =>
    obtain ⟨hp, hps⟩ := List.forall_mem_cons.mp hps
    obtain ⟨u, v, rfl, hu, hv⟩ := hw
    rw [backtrack_cons hp]
    intro hnone
    exact ih hps hv (quantified_spec.2 hnone u (v ++ r) (List.append_assoc _ _ _) hu)

/-- A part of a repetition can be taken where the whole could. -/
theorem Piece.Takes.of_append {u₁ u₂ : List Char} (h : p.Takes (u₁ ++ u₂)) (hu₂ : u₂ ≠ []) :
    p.Takes u₂ := by
  refine ⟨fun c hc => h.1 c (List.mem_append_right _ hc), ?_⟩
  have hallows := h.2
  have hpos : 0 < u₂.length := List.length_pos_iff.mpr hu₂
  rw [List.length_append] at hallows
  revert hallows
  cases p.quantifier with
  | one => exact fun h => show u₂.length = 1 by simp only [Quantifier.Allows] at h; omega
  | zeroOrMore => exact fun _ => trivial
  | oneOrMore => exact fun _ => hpos
  | zeroOrOne => exact fun h => show u₂.length ≤ 1 by simp only [Quantifier.Allows] at h; omega

/-- What is left of a match is a match of the last pieces. -/
theorem Matches.of_append {v₁ v₂ : List Char} (h : Matches ps (v₁ ++ v₂)) (hv₂ : v₂ ≠ []) :
    ∃ qs, qs <:+ ps ∧ Matches qs v₂ := by
  induction ps generalizing v₁ with
  | nil => exact (hv₂ (List.append_eq_nil_iff.mp h).2).elim
  | cons p ps ih =>
    obtain ⟨u, v, heq, hu, hv⟩ := h
    rcases List.append_eq_append_iff.mp heq with ⟨a, rfl, rfl⟩ | ⟨a, rfl, rfl⟩
    · by_cases ha : a = []
      · subst ha
        exact ⟨ps, List.suffix_cons _ _, hv⟩
      · exact ⟨p :: ps, List.suffix_rfl, a, v, rfl, hu.of_append ha, hv⟩
    · obtain ⟨qs, hqs, hmatch⟩ := ih hv
      exact ⟨qs, hqs.trans (List.suffix_cons _ _), hmatch⟩

/-- The first success is as long as any match, also one of the last pieces only. -/
theorem length_le_of_backtrack (hps : ∀ p ∈ ps, p.node.Simple)
    (h : backtrack ps text = some left) {qs : List Piece} {v r : List Char} (hqs : qs <:+ ps)
    (hv : Matches qs v) (htext : text = v ++ r) : left.length ≤ r.length := by
  induction ps generalizing text qs v with
  | nil =>
    obtain rfl := List.suffix_nil.mp hqs
    rw [backtrack] at h
    cases h
    cases hv
    rw [htext, List.nil_append]
  | cons p ps ih =>
    obtain ⟨hp, hps'⟩ := List.forall_mem_cons.mp hps
    rw [backtrack_cons hp] at h
    obtain ⟨u, s, hus, -, hnext, hlonger⟩ := quantified_spec.1 _ h
    have hle : left.length ≤ s.length := by
      obtain ⟨w, rfl, -⟩ := matches_of_backtrack hps' hnext
      rw [List.length_append]
      exact Nat.le_add_left _ _
    -- Behind what the first piece takes, the other match goes on with some of the last pieces.
    have hbehind : ∀ {a v : List Char} {qs : List Piece}, qs <:+ ps → Matches qs v →
        a ++ s = v ++ r → left.length ≤ r.length := by
      intro a v qs hqs hmatch heq
      rcases List.append_eq_append_iff.mp heq with ⟨v₂, rfl, hs⟩ | ⟨b, rfl, rfl⟩
      · by_cases hv₂ : v₂ = []
        · rw [hs, hv₂] at hle
          exact hle
        · obtain ⟨qs', hqs', hmatch'⟩ := hmatch.of_append hv₂
          exact ih hps' hnext (hqs'.trans hqs) hmatch' hs
      · rw [List.length_append]
        exact hle.trans (Nat.le_add_left _ _)
    rcases List.suffix_cons_iff.mp hqs with rfl | hqs
    · obtain ⟨u₀, v₀, rfl, hu₀, hv₀⟩ := hv
      rw [List.append_assoc] at htext
      have hge : u₀.length ≤ u.length := not_lt.mp fun hlt =>
        backtrack_ne_none hps' hv₀ (hlonger u₀ (v₀ ++ r) htext hu₀ hlt)
      obtain ⟨a, rfl⟩ : u₀ <+: u :=
        List.prefix_of_prefix_length_le ⟨_, htext.symm⟩ ⟨_, hus.symm⟩ hge
      rw [hus, List.append_assoc] at htext
      exact hbehind List.suffix_rfl hv₀ (List.append_cancel_left htext)
    · exact hbehind hqs hv (hus.symm.trans htext)

end Backtrack

/-! ### Finding -/

/-- A place where the text matches, as the anchors demand. -/
def Occurs (re : Regex) (text before w after : List Char) : Prop :=
  text = before ++ w ++ after ∧ (re.anchorStart = true → before = []) ∧
    (re.anchorEnd = true → after = []) ∧ Matches re.pieces w

namespace Regex

variable {re : Regex}

theorem byteOff_append (before rest : List Char) :
    byteOff (before ++ rest) rest = byteLen before := by
  rw [byteOff, List.length_append, Nat.add_sub_cancel_right, List.take_left]

theorem tryMatchAt_eq_some_iff {text left : List Char} :
    re.tryMatchAt text = some left ↔
      backtrack re.pieces text = some left ∧ (re.anchorEnd = true → left = []) := by
  unfold tryMatchAt
  cases backtrack re.pieces text with
  | none => simp
  | some result =>
    by_cases hend : (re.anchorEnd && !result.isEmpty) = true
    · simp only [Option.bind_eq_bind, Option.bind_some, if_pos hend]
      refine iff_of_false nofun ?_
      rintro ⟨heq, hanchor⟩
      cases heq
      rw [Bool.and_eq_true] at hend
      rw [hanchor hend.1] at hend
      cases hend.2
    · simp only [Option.bind_eq_bind, Option.bind_some, if_neg hend]
      refine Iff.symm (and_iff_left_of_imp fun heq hanchor => ?_)
      cases heq
      rw [hanchor] at hend
      cases left with
      | nil => rfl
      | cons c left => exact (hend rfl).elim

/-- The attempt at a position succeeds exactly if a match starts there. -/
theorem tryMatchAt_spec (hre : ∀ p ∈ re.pieces, p.node.Simple) (text : List Char) :
    (∀ left, re.tryMatchAt text = some left →
      ∃ w, text = w ++ left ∧ Matches re.pieces w ∧ (re.anchorEnd = true → left = [])) ∧
    (re.tryMatchAt text = none → ∀ w after, text = w ++ after → Matches re.pieces w →
      (re.anchorEnd = true → after = []) → False) := by
  constructor
  · intro left h
    obtain ⟨hbacktrack, hanchor⟩ := tryMatchAt_eq_some_iff.mp h
    obtain ⟨w, hw, hmatch⟩ := matches_of_backtrack hre hbacktrack
    exact ⟨w, hw, hmatch, hanchor⟩
  · rintro hnone w after rfl hw hanchor
    obtain ⟨left, hleft⟩ := Option.ne_none_iff_exists'.mp (backtrack_ne_none (r := after) hre hw)
    -- The first success is the longest, so it ends where the text does if some match does.
    have hle := length_le_of_backtrack hre hleft List.suffix_rfl hw rfl
    have hsome : re.tryMatchAt (w ++ after) = some left := by
      refine tryMatchAt_eq_some_iff.mpr ⟨hleft, fun hend => ?_⟩
      rw [hanchor hend] at hle
      exact List.length_eq_zero_iff.mp (Nat.le_zero.mp hle)
    cases hnone.symm.trans hsome

end Regex

theorem pairwise_tails (chars : List Char) :
    chars.tails.Pairwise fun s t => t.length < s.length := by
  induction chars with
  | nil => exact List.pairwise_singleton _ _
  | cons c chars ih =>
    rw [List.tails_cons]
    refine List.pairwise_cons.mpr ⟨fun s hs => ?_, ih⟩
    exact Nat.lt_succ_of_le ((List.mem_tails s chars).mp hs).length_le

/-- The first position at which the function has a value. -/
theorem exists_of_findSome?_tails {β : Type} {f : List Char → Option β} {chars : List Char} {r : β}
    (h : chars.tails.findSome? f = some r) :
    ∃ before rest, chars = before ++ rest ∧ f rest = some r ∧
      ∀ before' rest', chars = before' ++ rest' → before'.length < before.length →
        f rest' = none := by
  obtain ⟨rest, hrest, hr, hearlier⟩ := exists_of_findSome?_pairwise (pairwise_tails chars) h
  obtain ⟨before, rfl⟩ := (List.mem_tails _ _).mp hrest
  refine ⟨before, rest, rfl, hr, fun before' rest' heq hlt => ?_⟩
  have hlen := congrArg List.length heq
  rw [List.length_append, List.length_append] at hlen
  refine hearlier rest' ((List.mem_tails _ _).mpr ⟨before', heq.symm⟩) ?_ (by omega)
  rintro rfl
  omega

/-- What is found is a match, and none starts before it. -/
theorem leftmost_of_find {re : Regex} (hre : ∀ p ∈ re.pieces, p.node.Simple) {text : String}
    {start stop : Nat} (hfind : re.find text = some (start, stop)) :
    ∃ before w after, Occurs re text.toList before w after ∧
      start = byteLen before ∧
      ∀ before' w' after', Occurs re text.toList before' w' after' →
        before.length ≤ before'.length := by
  have hspec := Regex.tryMatchAt_spec hre
  unfold Regex.find at hfind
  dsimp only at hfind
  by_cases hstart : re.anchorStart = true
  · rw [if_pos hstart] at hfind
    obtain ⟨after, htry, heq⟩ := Option.map_eq_some_iff.mp hfind
    cases heq
    obtain ⟨w, htext, hw, hend⟩ := (hspec _).1 _ htry
    exact ⟨[], w, after, ⟨htext, fun _ => rfl, hend, hw⟩, rfl, fun _ _ _ _ => Nat.zero_le _⟩
  · rw [if_neg hstart] at hfind
    obtain ⟨before, rest, htext, hrest, hearlier⟩ := exists_of_findSome?_tails hfind
    obtain ⟨after, htry, heq⟩ := Option.map_eq_some_iff.mp hrest
    cases heq
    obtain ⟨w, rfl, hw, hend⟩ := (hspec _).1 _ htry
    have htext' : text.toList = (before ++ w) ++ after := by rw [htext, List.append_assoc]
    refine ⟨before, w, after, ⟨htext', fun h => (hstart h).elim, hend, hw⟩, ?_, ?_⟩
    · rw [htext, Regex.byteOff_append]
    · rintro before' w' after' ⟨htext'', -, hend', hw'⟩
      rw [List.append_assoc] at htext''
      refine not_lt.mp fun hlt => ?_
      have hnone := Option.map_eq_none_iff.mp (hearlier before' _ htext'' hlt)
      exact (hspec _).2 hnone w' after' rfl hw' hend'

/-- Where there is a match, one is found. -/
theorem find_ne_none {re : Regex} (hre : ∀ p ∈ re.pieces, p.node.Simple) {text : String}
    {before w after : List Char} (h : Occurs re text.toList before w after) :
    re.find text ≠ none := by
  have hspec := Regex.tryMatchAt_spec hre
  obtain ⟨htext, hbefore, hend, hw⟩ := h
  intro hnone
  rw [List.append_assoc] at htext
  unfold Regex.find at hnone
  dsimp only at hnone
  by_cases hstart : re.anchorStart = true
  · rw [if_pos hstart, Option.map_eq_none_iff] at hnone
    rw [hbefore hstart] at htext
    exact (hspec _).2 hnone w after htext hw hend
  · rw [if_neg hstart] at hnone
    have hrest := List.findSome?_eq_none_iff.mp hnone (w ++ after)
      ((List.mem_tails _ _).mpr ⟨before, htext.symm⟩)
    exact (hspec _).2 (Option.map_eq_none_iff.mp hrest) w after rfl hw hend

end MerlionKernel.Regexp
