import Mathlib.Data.Nat.Find
import MerlionKernel.Regexp.Leftmost

/-!
# Which `$` is an anchor

A pattern without `|` is read from left to right, atom by atom. A `$` is an anchor if it is the last
character and no atom before it takes it in. `parse_pattern` does not read so far: it takes a `$` at
the end for an anchor unless there is a backslash before it. Behind an escaped backslash it is
wrong, and the `$` becomes a character that has to stand in the text.
-/

namespace MerlionKernel.Regexp

/-- The pieces that a pattern consists of, and whether a `$` at its end is an anchor. -/
def reading (chars : List Char) : Option (List Piece × Bool) :=
  match chars with
  | [] => some ([], false)
  | ch :: rest =>
    if ch = '$' ∧ rest = [] then some ([], true)
    else
      match _h : parseAtom ch rest with
      | .error _ => none
      | .ok (node, left) =>
        (reading (parseQuantifier 0 left).2).map fun (pieces, anchored) =>
          (⟨node, (parseQuantifier 0 left).1⟩ :: pieces, anchored)
termination_by chars.length
decreasing_by
  have hle := ((parseQuantifier_suffix 0 left).trans (of_parseAtom _h).2).length_le
  exact Nat.lt_succ_of_le hle

/-- What the pattern means. -/
def meaning (pattern : String) : Option Regex :=
  let chars := pattern.toList
  let anchorStart := chars.head? == some '^'
  (reading (if anchorStart then chars.tail else chars)).map fun (pieces, anchorEnd) =>
    { pieces, anchorStart, anchorEnd }

/-! ### Reading along with the parser -/

theorem getLast?_of_suffix {s t : List Char} {c : Char} (h : s <:+ t) (hs : s.getLast? = some c) :
    t.getLast? = some c := by
  obtain ⟨before, rfl⟩ := h
  rw [List.getLast?_append, hs]
  rfl

theorem reading_cons {ch : Char} {rest left : List Char} {node : Node}
    (hatom : parseAtom ch rest = .ok (node, left)) (hend : ¬ (ch = '$' ∧ rest = [])) :
    reading (ch :: rest) = (reading (parseQuantifier 0 left).2).map fun (pieces, anchored) =>
      (⟨node, (parseQuantifier 0 left).1⟩ :: pieces, anchored) := by
  rw [reading, if_neg hend]
  split
  · next h => cases hatom.symm.trans h
  · next h =>
    cases hatom.symm.trans h
    rfl

/-- A class ends in front of a bracket. -/
theorem bracket_of_classItems {chars rest : List Char} {c : Char}
    (h : (classItems chars).2 = c :: rest) : c = ']' := by
  fun_induction classItems chars with
  | case1 => cases h
  | case2 rest =>
    cases h
    rfl
  | case3 ch hch dash stop rest hrange items left heq ih =>
    rw [heq] at ih
    exact ih h
  | case4 ch hch dash stop rest hrange items left heq ih =>
    rw [heq] at ih
    exact ih h
  | case5 ch hch rest hrest items left heq ih =>
    rw [heq] at ih
    exact ih h

/-- An atom does not take in a `$` at the end, except behind a backslash. -/
theorem parseAtom_keeps {ch : Char} {front left : List Char} {node : Node}
    (h : parseAtom ch (front ++ ['$']) = .ok (node, left))
    (hlast : (ch :: front).getLast? ≠ some '\\') :
    ∃ front', left = front' ++ ['$'] ∧ front' <:+ front := by
  rcases List.suffix_concat_iff.mp (of_parseAtom h).2 with rfl | hkept
  · exfalso
    unfold parseAtom at h
    split at h
    · simp at h
    · rcases front with - | ⟨c, front⟩
      · exact hlast rfl
      · unfold parseEscape at h
        simp only [List.cons_append] at h
        split at h <;> simp at h
    · obtain ⟨⟨⟨items, negated⟩, left⟩, hclass, heq⟩ := map_eq_ok h
      cases heq
      unfold parseClass at hclass
      dsimp only at hclass
      split at hclass
      · cases hclass
      · next items c rest heq =>
        cases hclass
        have hsuffix := classItems_suffix
          (if ((front ++ ['$']).head? == some '^') = true then (front ++ ['$']).tail
            else front ++ ['$'])
        rw [heq] at hsuffix
        have hwhole : [c] <:+ front ++ ['$'] := hsuffix.trans (by
          split
          · exact List.tail_suffix _
          · exact List.suffix_rfl)
        obtain rfl := bracket_of_classItems (congrArg Prod.snd heq)
        have hlast := getLast?_of_suffix hwhole rfl
        rw [List.getLast?_concat] at hlast
        cases hlast
    · simp at h
  · exact hkept

theorem parseQuantifier_keeps (front : List Char) :
    parseQuantifier 1 (front ++ ['$']) = parseQuantifier 0 (front ++ ['$']) ∧
      ∃ front', (parseQuantifier 0 (front ++ ['$'])).2 = front' ++ ['$'] ∧ front' <:+ front := by
  rcases front with - | ⟨c, front⟩
  · exact ⟨rfl, [], rfl, List.suffix_rfl⟩
  · have hone : 1 < (c :: (front ++ ['$'])).length := by simp
    have hzero : 0 < (c :: (front ++ ['$'])).length := by simp
    simp only [List.cons_append, parseQuantifier, if_pos hone, if_pos hzero, true_and]
    split
    · exact ⟨front, rfl, List.suffix_cons _ _⟩
    · exact ⟨front, rfl, List.suffix_cons _ _⟩
    · exact ⟨front, rfl, List.suffix_cons _ _⟩
    · exact ⟨c :: front, rfl, List.suffix_rfl⟩

/-- Where no backslash stands before the `$`, the parser stops in front of it. -/
theorem reading_of_parseConcat_one {chars front stop : List Char} {pieces : List Piece}
    (hchars : chars = front ++ ['$']) (hbar : '|' ∉ chars) (hlast : front.getLast? ≠ some '\\')
    (h : parseConcat 1 chars = .ok (pieces, stop)) : reading chars = some (pieces, true) := by
  fun_induction parseConcat 1 chars generalizing front pieces stop with
  | case1 => simp at hchars
  | case2 ch rest hch e hatom => cases h
  | case3 ch rest hch node left hatom ih =>
    obtain ⟨⟨tail, stop'⟩, htail, heq⟩ := map_eq_ok h
    cases heq
    rcases front with - | ⟨c, front⟩
    · cases hchars
      exact absurd hch.1 (by simp)
    cases hchars
    obtain ⟨front₁, rfl, hfront₁⟩ := parseAtom_keeps hatom hlast
    obtain ⟨hquantifier, front₂, hleft, hfront₂⟩ := parseQuantifier_keeps front₁
    have hsuffix : front₂ <:+ ch :: front :=
      (hfront₂.trans hfront₁).trans (List.suffix_cons _ _)
    have hlast₂ : front₂.getLast? ≠ some '\\' := fun hback =>
      hlast (getLast?_of_suffix hsuffix hback)
    rw [hquantifier] at ih htail ⊢
    have hbar₂ : '|' ∉ (parseQuantifier 0 (front₁ ++ ['$'])).2 := fun hmem =>
      hbar ((suffix_of_parseAtom hatom 0).subset hmem)
    rw [reading_cons hatom (by simp), ih hleft hbar₂ hlast₂ htail]
    rfl
  | case4 ch rest hch =>
    cases h
    have hlength : ¬ 1 < (ch :: rest).length := fun hlt =>
      hch ⟨hlt, fun heq => hbar (heq ▸ List.mem_cons_self)⟩
    have hfront := congrArg List.length hchars
    rw [List.length_append, List.length_singleton] at hfront
    obtain rfl : front = [] := List.length_eq_zero_iff.mp (by omega)
    rw [hchars]
    show reading ['$'] = _
    rw [reading, if_pos ⟨rfl, rfl⟩]

/-- A `$` that is to be matched. -/
def dollar : Piece := ⟨.literal '$', .one⟩

/-- Where the parser reads to the end, it may take an anchor for a character. -/
theorem reading_of_parseConcat_zero {chars stop : List Char} {pieces : List Piece}
    (hbar : '|' ∉ chars) (h : parseConcat 0 chars = .ok (pieces, stop)) :
    reading chars = some (pieces, false) ∨
      chars.getLast? = some '$' ∧
        ∃ ps, pieces = ps ++ [dollar] ∧ reading chars = some (ps, true) := by
  fun_induction parseConcat 0 chars generalizing pieces stop with
  | case1 =>
    cases h
    rw [reading]
    exact .inl rfl
  | case2 ch rest hch e hatom => cases h
  | case3 ch rest hch node left hatom ih =>
    obtain ⟨⟨tail, stop'⟩, htail, heq⟩ := map_eq_ok h
    cases heq
    by_cases hend : ch = '$' ∧ rest = []
    · obtain ⟨rfl, rfl⟩ := hend
      cases hatom
      have hnil : parseConcat 0 [] = .ok ([], []) := by rw [parseConcat]
      cases hnil.symm.trans htail
      refine .inr ⟨rfl, [], rfl, ?_⟩
      rw [reading, if_pos ⟨rfl, rfl⟩]
    · have hsuffix := suffix_of_parseAtom hatom 0
      rw [reading_cons hatom hend]
      rcases ih (fun hmem => hbar (hsuffix.subset hmem)) htail with hread | ⟨hlast, ps, rfl, hread⟩
      · rw [hread]
        exact .inl rfl
      · rw [hread]
        exact .inr ⟨getLast?_of_suffix hsuffix hlast, _, rfl, rfl⟩
  | case4 ch rest hch =>
    exact absurd ⟨Nat.succ_pos _, fun heq => hbar (heq ▸ List.mem_cons_self)⟩ hch

/-! ### Compiling -/

/-- The `$` at the end is an anchor, but there is a backslash before it. -/
def AnchorMissed (pattern : String) (meant : Regex) : Prop :=
  meant.anchorEnd = true ∧ pattern.toList.dropLast.getLast? = some '\\'

/-- The expression with a character `$` in the place of the anchor. -/
def Regex.withDollar (re : Regex) : Regex :=
  { re with pieces := re.pieces ++ [dollar], anchorEnd := false }

/-- A pattern is compiled to what it means, except that an anchor may be missed. -/
theorem meaning_of_compile {pattern : String} {re : Regex} (hpattern : '|' ∉ pattern.toList)
    (h : compile pattern = .ok re) :
    ∃ meant, meaning pattern = some meant ∧
      (re = meant ∧ ¬ AnchorMissed pattern meant ∨
        re = meant.withDollar ∧ AnchorMissed pattern meant) := by
  obtain ⟨hstart, hend, stop, hconcat⟩ := concat_of_compile hpattern h
  obtain ⟨pieces, anchorStart, anchorEnd⟩ := re
  dsimp only at hstart hend hconcat
  subst hstart
  generalize hbody : (if (pattern.toList.head? == some '^') = true then pattern.toList.tail
    else pattern.toList) = body at hconcat
  have hsuffix : body <:+ pattern.toList := by
    rw [← hbody]
    split
    · exact List.tail_suffix _
    · exact List.suffix_rfl
  have hbar : '|' ∉ body := fun hmem => hpattern (hsuffix.subset hmem)
  unfold meaning
  dsimp only
  rw [hbody]
  cases anchorEnd with
  | true =>
    obtain ⟨hdollar, hback⟩ := Bool.and_eq_true_iff.mp hend.symm
    rw [bne_iff_ne] at hback
    rw [beq_iff_eq, List.getLast?_eq_some_iff] at hdollar
    obtain ⟨front, hfront⟩ := hdollar
    rw [hfront, List.dropLast_concat] at hback
    rw [hfront] at hsuffix
    rcases List.suffix_concat_iff.mp hsuffix with hnil | ⟨t, ht, htfront⟩
    · -- Only `^` leaves nothing, and it does not end in `$`.
      rw [hfront, hnil] at hbody
      rcases front with - | ⟨c, front⟩
      · cases hbody
      · split at hbody
        · cases front <;> cases hbody
        · cases hbody
    · have hread := reading_of_parseConcat_one ht hbar
        (fun h => hback (getLast?_of_suffix htfront h)) hconcat
      refine ⟨⟨pieces, _, true⟩, by rw [hread]; rfl, .inl ⟨rfl, fun hmissed => hback ?_⟩⟩
      rw [← hmissed.2, hfront, List.dropLast_concat]
  | false =>
    rcases reading_of_parseConcat_zero hbar hconcat with hread | ⟨hlast, ps, rfl, hread⟩
    · exact ⟨⟨pieces, _, false⟩, by rw [hread]; rfl, .inl ⟨rfl, fun hmissed => nomatch hmissed.1⟩⟩
    · refine ⟨⟨ps, _, true⟩, by rw [hread]; rfl, .inr ⟨rfl, rfl, ?_⟩⟩
      rw [getLast?_of_suffix hsuffix hlast] at hend
      simpa using hend

/-! ### The leftmost occurrence -/

/-- The expression occurs behind `n` characters, and nowhere before. -/
def LeftmostAt (re : Regex) (text : List Char) (n : Nat) : Prop :=
  (∃ before w after, Occurs re text before w after ∧ before.length = n) ∧
    ∀ before w after, Occurs re text before w after → n ≤ before.length

/-- A match is found exactly if there is one, and then one that starts as far to the left as any. -/
def FindsLeftmost (re : Regex) (text : String) (found : Option (Nat × Nat)) : Prop :=
  (found ≠ none ↔ ∃ before w after, Occurs re text.toList before w after) ∧
    ∀ start stop, found = some (start, stop) →
      ∃ n, LeftmostAt re text.toList n ∧ start = byteLen (text.toList.take n)

theorem byteLen_take_lt {chars : List Char} {m n : Nat} (hmn : m < n) (hn : n ≤ chars.length) :
    byteLen (chars.take m) < byteLen (chars.take n) := by
  induction chars generalizing m n with
  | nil => exact absurd (hmn.trans_le hn) (Nat.not_lt_zero m)
  | cons c chars ih =>
    obtain ⟨n, rfl⟩ := Nat.exists_eq_succ_of_ne_zero (Nat.ne_zero_of_lt hmn)
    have hpos := c.utf8Size_pos
    cases m with
    | zero =>
      rw [List.take_succ_cons, List.take_zero, byteLen, byteLen]
      omega
    | succ m =>
      have hlt := ih (Nat.lt_of_succ_lt_succ hmn) (Nat.le_of_succ_le_succ hn)
      rw [List.take_succ_cons, List.take_succ_cons, byteLen, byteLen]
      omega

section Leftmost

variable {re meant : Regex} {text : String}

theorem LeftmostAt.unique {chars : List Char} {m n : Nat} (hm : LeftmostAt re chars m)
    (hn : LeftmostAt re chars n) : m = n := by
  obtain ⟨⟨before, w, after, hoccurs, rfl⟩, hfirst⟩ := hm
  obtain ⟨⟨before', w', after', hoccurs', rfl⟩, hfirst'⟩ := hn
  exact Nat.le_antisymm (hfirst _ _ _ hoccurs') (hfirst' _ _ _ hoccurs)

theorem LeftmostAt.le_length {chars : List Char} {n : Nat} (h : LeftmostAt re chars n) :
    n ≤ chars.length := by
  obtain ⟨⟨before, w, after, ⟨rfl, -⟩, rfl⟩, -⟩ := h
  rw [List.length_append, List.length_append]
  omega

theorem exists_leftmostAt_iff {chars : List Char} :
    (∃ n, LeftmostAt re chars n) ↔ ∃ before w after, Occurs re chars before w after := by
  constructor
  · rintro ⟨n, ⟨before, w, after, hoccurs, -⟩, -⟩
    exact ⟨before, w, after, hoccurs⟩
  · rintro ⟨before, w, after, hoccurs⟩
    classical
    have hex : ∃ n, ∃ before w after, Occurs re chars before w after ∧ before.length = n :=
      ⟨_, before, w, after, hoccurs, rfl⟩
    exact ⟨Nat.find hex, Nat.find_spec hex, fun before' w' after' hoccurs' =>
      Nat.find_min' hex ⟨before', w', after', hoccurs', rfl⟩⟩

theorem findsLeftmost_find (hre : ∀ p ∈ re.pieces, p.node.Simple) :
    FindsLeftmost re text (re.find text) := by
  refine ⟨⟨fun hne => ?_, fun ⟨_, _, _, hoccurs⟩ => find_ne_none hre hoccurs⟩, ?_⟩
  · obtain ⟨⟨start, stop⟩, hfind⟩ := Option.ne_none_iff_exists'.mp hne
    obtain ⟨before, w, after, hoccurs, -⟩ := leftmost_of_find hre hfind
    exact ⟨before, w, after, hoccurs⟩
  · intro start stop hfind
    obtain ⟨before, w, after, hoccurs, hstart, hfirst⟩ := leftmost_of_find hre hfind
    refine ⟨before.length, ⟨⟨before, w, after, hoccurs, rfl⟩, hfirst⟩, ?_⟩
    rw [hstart, hoccurs.1, List.append_assoc, List.take_left]

/-- What one expression finds is right for another exactly if both occur first at the same place. -/
theorem findsLeftmost_iff (hre : ∀ p ∈ re.pieces, p.node.Simple) :
    FindsLeftmost meant text (re.find text) ↔
      ∀ n, LeftmostAt meant text.toList n ↔ LeftmostAt re text.toList n := by
  have hself := @findsLeftmost_find re text hre
  constructor
  · intro hmeant n
    cases hfind : re.find text with
    | none =>
      rw [hfind] at hself hmeant
      refine iff_of_false (fun h => ?_) fun h => ?_
      · exact hmeant.1.mpr (exists_leftmostAt_iff.mp ⟨n, h⟩) rfl
      · exact hself.1.mpr (exists_leftmostAt_iff.mp ⟨n, h⟩) rfl
    | some found =>
      obtain ⟨m, hm, hstart⟩ := hself.2 _ _ hfind
      obtain ⟨m', hm', hstart'⟩ := hmeant.2 _ _ hfind
      obtain rfl : m = m' := by
        rcases Nat.lt_trichotomy m m' with hlt | heq | hlt
        · exact absurd (hstart.symm.trans hstart') (byteLen_take_lt hlt hm'.le_length).ne
        · exact heq
        · exact absurd (hstart'.symm.trans hstart) (byteLen_take_lt hlt hm.le_length).ne
      exact ⟨fun h => hm'.unique h ▸ hm, fun h => hm.unique h ▸ hm'⟩
  · intro hsame
    refine ⟨?_, fun start stop hfind => ?_⟩
    · rw [hself.1, ← exists_leftmostAt_iff, ← exists_leftmostAt_iff]
      exact exists_congr fun n => (hsame n).symm
    · obtain ⟨n, hn, hstart⟩ := hself.2 start stop hfind
      exact ⟨n, (hsame n).mpr hn, hstart⟩

end Leftmost

/-- For every pattern without `|` that compiles, `find` finds a match exactly if there is one, and
then one that starts as far to the left as any, unless a `$` that is an anchor is missed and the
expression first occurs elsewhere with a character `$` in its place. -/
theorem find_leftmost_iff {pattern : String} {re : Regex} (hpattern : '|' ∉ pattern.toList)
    (hre : compile pattern = .ok re) (text : String) :
    ∃ meant, meaning pattern = some meant ∧
      (FindsLeftmost meant text (re.find text) ↔
        (AnchorMissed pattern meant →
          ∀ n, LeftmostAt meant text.toList n ↔ LeftmostAt meant.withDollar text.toList n)) := by
  have hsimple := simple_of_compile hpattern hre
  obtain ⟨meant, hmeaning, ⟨rfl, hkept⟩ | ⟨rfl, hmissed⟩⟩ := meaning_of_compile hpattern hre
  · exact ⟨_, hmeaning, iff_of_true (findsLeftmost_find hsimple) fun h => absurd h hkept⟩
  · refine ⟨meant, hmeaning, (findsLeftmost_iff hsimple).trans ?_⟩
    exact ⟨fun h _ => h, fun h => h hmissed⟩

/-! ### A missed anchor -/

/-- What `b*\\\\$` means: any number of `b`, and a backslash at the end of the text. -/
def backslashAtEnd : Regex := ⟨[⟨.literal 'b', .zeroOrMore⟩, ⟨.literal '\\', .one⟩], false, true⟩

theorem meaning_backslashAtEnd : meaning "b*\\\\$" = some backslashAtEnd := by
  show (reading ['b', '*', '\\', '\\', '$']).map _ = _
  rw [@reading_cons _ _ ['*', '\\', '\\', '$'] (.literal 'b') rfl (by decide)]
  show ((reading ['\\', '\\', '$']).map _).map _ = _
  rw [@reading_cons _ _ ['$'] (.literal '\\') rfl (by decide)]
  show (((reading ['$']).map _).map _).map _ = _
  rw [reading]
  rfl

theorem compile_backslashAtEnd : compile "b*\\\\$" = .ok backslashAtEnd.withDollar := by
  have hconcat : parseConcat 0 ['b', '*', '\\', '\\', '$'] =
      .ok (backslashAtEnd.withDollar.pieces, []) := by
    rw [@parseConcat_cons _ _ ['*', '\\', '\\', '$'] (.literal 'b') (by decide) rfl]
    show (parseConcat 0 ['\\', '\\', '$']).map _ = _
    rw [@parseConcat_cons _ _ ['$'] (.literal '\\') (by decide) rfl]
    show ((parseConcat 0 ['$']).map _).map _ = _
    rw [@parseConcat_cons _ _ [] (.literal '$') (by decide) rfl]
    show (((parseConcat 0 []).map _).map _).map _ = _
    rw [parseConcat]
    rfl
  show (parseSequence 0 ['b', '*', '\\', '\\', '$']).bind _ = _
  rw [parseSequence, hconcat]
  show (parseAlternatives 0 backslashAtEnd.withDollar.pieces []).bind _ = _
  rw [parseAlternatives_nil]
  rfl

theorem find_leftmost_iff_backslashAtEnd :
    '|' ∉ "b*\\\\$".toList ∧ compile "b*\\\\$" = .ok backslashAtEnd.withDollar ∧
      ∃ meant, meaning "b*\\\\$" = some meant ∧
        (FindsLeftmost meant "bb\\" (backslashAtEnd.withDollar.find "bb\\") ↔
          (AnchorMissed "b*\\\\$" meant →
            ∀ n, LeftmostAt meant "bb\\".toList n ↔ LeftmostAt meant.withDollar "bb\\".toList n)) :=
  ⟨by decide, compile_backslashAtEnd,
    find_leftmost_iff (by decide) compile_backslashAtEnd "bb\\"⟩

/-- The text of a `b` and a backslash is missed. -/
theorem find_misses_anchor :
    compile "b*\\\\$" = .ok backslashAtEnd.withDollar ∧
      meaning "b*\\\\$" = some backslashAtEnd ∧
      backslashAtEnd.withDollar.find "b\\" = none ∧
      Occurs backslashAtEnd "b\\".toList [] ['b', '\\'] [] := by
  have hb : ∀ c ∈ ['b'], nodeMatches (.literal 'b') c = true := List.forall_mem_singleton.mpr rfl
  have hbackslash : ∀ c ∈ ['\\'], nodeMatches (.literal '\\') c = true :=
    List.forall_mem_singleton.mpr rfl
  exact ⟨compile_backslashAtEnd, meaning_backslashAtEnd, by decide +kernel, rfl, fun _ => rfl,
    fun _ => rfl, ['b'], ['\\'], rfl, ⟨hb, trivial⟩, ['\\'], [], rfl, ⟨hbackslash, rfl⟩, rfl⟩

end MerlionKernel.Regexp
