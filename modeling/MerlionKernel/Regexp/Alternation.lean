import MerlionKernel.Regexp.Leftmost

/-!
# Alternatives

The pattern `l|r` is parsed into one piece that holds the nodes of both arms. The quantifiers of
the arms are dropped on the way, and the matcher takes every node of an arm once. A text with such
a match has one of `l` or of `r`, because every quantifier allows one repetition; the converse
fails for the texts in which `l` or `r` is matched only with other numbers of repetitions.
-/

namespace MerlionKernel.Regexp

/-- `Regex::is_match`. -/
def Regex.isMatch (re : Regex) (text : String) : Bool := (re.find text).isSome

/-! ### Parsing an arm -/

theorem classItems_bracket (rest : List Char) : classItems (']' :: rest) = ([], ']' :: rest) := by
  rw [classItems.eq_def]
  exact if_pos rfl

/-- An item that does not begin a range. -/
theorem classItems_single {ch : Char} {rest : List Char} (hch : ch ≠ ']')
    (hrest : ∀ stop rest', rest = '-' :: stop :: rest' → stop = ']') :
    classItems (ch :: rest) = (.single ch :: (classItems rest).1, (classItems rest).2) := by
  rw [classItems.eq_def]
  simp only [if_neg hch]
  split
  · next dash stop rest' =>
    rw [if_neg]
    rintro ⟨rfl, hstop⟩
    exact hstop (hrest stop rest' rfl)
  · rfl

theorem classItems_append {chars left : List Char} {items : List ClassItem} {c : Char}
    (h : classItems chars = (items, c :: left)) (t : List Char) :
    classItems (chars ++ t) = (items, c :: left ++ t) := by
  fun_induction classItems chars generalizing items with
  | case1 => cases h
  | case2 rest =>
    cases h
    exact classItems_bracket _
  | case3 ch hch dash stop rest hrange items' left' heq ih =>
    cases h
    rw [List.cons_append, List.cons_append, List.cons_append, classItems, if_neg hch]
    simp only [if_pos hrange, ih heq]
  | case4 ch hch dash stop rest hrange items' left' heq ih =>
    cases h
    rw [List.cons_append, classItems_single hch, ih heq]
    intro stop' rest' hcons
    cases hcons
    exact not_not.mp fun hstop => hrange ⟨rfl, hstop⟩
  | case5 ch hch rest hrest items' left' heq ih =>
    cases h
    rw [List.cons_append, classItems_single hch, ih heq]
    intro stop rest' hcons
    -- Behind the item there is one character, the bracket, so that no range can begin.
    cases rest with
    | nil => cases heq
    | cons d rest =>
      cases rest with
      | cons e rest => exact (hrest d e rest rfl).elim
      | nil =>
        cases hcons
        rw [classItems_single (by decide) fun _ _ h => absurd h (List.cons_ne_nil _ _).symm] at heq
        cases heq

theorem parseClass_append {chars left : List Char} {result : List ClassItem × Bool}
    (h : parseClass chars = .ok (result, left)) (t : List Char) :
    parseClass (chars ++ t) = .ok (result, left ++ t) := by
  cases chars with
  | nil => cases h
  | cons c chars =>
    have hskip : (if ((c :: chars ++ t).head? == some '^') = true then (c :: chars ++ t).tail
        else c :: chars ++ t) =
        (if ((c :: chars).head? == some '^') = true then (c :: chars).tail else c :: chars) ++
          t := by
      by_cases hc : ((c :: chars).head? == some '^') = true
      · rw [if_pos hc]
        exact if_pos hc
      · rw [if_neg hc]
        exact if_neg hc
    unfold parseClass at h ⊢
    dsimp only at h ⊢
    rw [hskip]
    split at h
    · cases h
    · next items d rest heq =>
      cases h
      rw [classItems_append heq]
      rfl

theorem parseAtom_append {ch : Char} {rest left : List Char} {node : Node}
    (h : parseAtom ch rest = .ok (node, left)) (t : List Char) :
    parseAtom ch (rest ++ t) = .ok (node, left ++ t) := by
  unfold parseAtom at h ⊢
  split at h
  · cases h
    rfl
  · cases rest with
    | nil => cases h
    | cons c rest =>
      rw [List.cons_append]
      unfold parseEscape at h ⊢
      simp only at h ⊢
      split at h
      all_goals
        cases h
        rfl
  · cases hclass : parseClass rest with
    | error e =>
      rw [hclass] at h
      cases h
    | ok result =>
      rw [hclass] at h
      cases h
      simp only [parseClass_append hclass]
      rfl
  · cases h
    rfl

theorem parseQuantifier_append (chars r : List Char) :
    parseQuantifier 0 (chars ++ '|' :: r) =
      ((parseQuantifier 0 chars).1, (parseQuantifier 0 chars).2 ++ '|' :: r) := by
  cases chars with
  | nil => rfl
  | cons ch rest =>
    simp only [List.cons_append, parseQuantifier, List.length_cons, Nat.zero_lt_succ, if_true]
    split
    all_goals rfl

/-- The first arm is parsed as it is on its own. -/
theorem parseConcat_append {chars : List Char} {pieces : List Piece}
    (h : parseConcat 0 chars = .ok (pieces, [])) (r : List Char) :
    parseConcat 0 (chars ++ '|' :: r) = .ok (pieces, '|' :: r) := by
  generalize hbehind : 0 = behind at h
  fun_induction parseConcat behind chars generalizing pieces with
  | case1 =>
    cases h
    rw [List.nil_append, parseConcat, if_neg fun h => h.2 rfl]
  | case2 ch rest hch e hatom => cases h
  | case3 ch rest hch node left hatom ih =>
    subst hbehind
    obtain ⟨⟨tail, stop⟩, htail, heq⟩ := map_eq_ok h
    cases heq
    rw [List.cons_append, parseConcat_cons hch.2 (parseAtom_append hatom _),
      parseQuantifier_append, ih htail]
    rfl
  | case4 ch rest hch => cases h

/-- A concatenation ends at a bar or at the end of the pattern. -/
theorem stop_of_parseConcat {chars stop : List Char} {ch : Char} {pieces : List Piece}
    (h : parseConcat 0 chars = .ok (pieces, ch :: stop)) : ch = '|' := by
  generalize hbehind : 0 = behind at h
  fun_induction parseConcat behind chars generalizing pieces with
  | case1 => cases h
  | case2 ch' rest hch e hatom => cases h
  | case3 ch' rest hch node left hatom ih =>
    obtain ⟨⟨tail, stop'⟩, htail, heq⟩ := map_eq_ok h
    cases heq
    exact ih htail
  | case4 ch' rest hch =>
    cases h
    subst hbehind
    exact not_not.mp fun hne => hch ⟨Nat.succ_pos _, hne⟩

theorem parseConcat_of_parseSequence {chars : List Char} {pieces : List Piece}
    (hchars : '|' ∉ chars) (h : parseSequence 0 chars = .ok pieces) :
    parseConcat 0 chars = .ok (pieces, []) := by
  obtain ⟨⟨left, rest⟩, hconcat, halternatives⟩ := Rust.bind_eq_ok_iff.mp h
  cases rest with
  | nil =>
    cases (parseAlternatives_nil left).symm.trans halternatives
    exact hconcat
  | cons ch rest =>
    refine (hchars ((of_parseConcat hconcat).2.subset ?_)).elim
    rw [stop_of_parseConcat hconcat]
    exact List.mem_cons_self

/-! ### Compiling the alternative -/

/-- The pattern ends in a `$` that is not escaped. -/
def endsInDollar (chars : List Char) : Bool :=
  chars.getLast? == some '$' && chars.dropLast.getLast? != some '\\'

theorem endsInDollar_append (chars r : List Char) :
    endsInDollar (chars ++ '|' :: r) = endsInDollar r := by
  unfold endsInDollar
  cases r using List.reverseRecOn with
  | nil => simp
  | append_singleton r c =>
    have hsplit : chars ++ '|' :: (r ++ [c]) = (chars ++ '|' :: r) ++ [c] := by simp
    rw [hsplit, List.getLast?_concat, List.getLast?_concat, List.dropLast_concat,
      List.dropLast_concat]
    cases r using List.reverseRecOn with
    | nil =>
      rw [List.getLast?_append_cons]
      rfl
    | append_singleton r d =>
      have hsplit : chars ++ '|' :: (r ++ [d]) = (chars ++ '|' :: r) ++ [d] := by simp
      rw [hsplit, List.getLast?_concat, List.getLast?_concat]

/-- What a pattern without anchors and bars compiles to. -/
theorem of_compile {pattern : String} {re : Regex} (hpattern : '|' ∉ pattern.toList)
    (h : compile pattern = .ok re) (hstart : re.anchorStart = false)
    (hend : re.anchorEnd = false) :
    (pattern.toList.head? == some '^') = false ∧ endsInDollar pattern.toList = false ∧
      parseConcat 0 pattern.toList = .ok (re.pieces, []) := by
  obtain ⟨pieces, hpieces, hre⟩ := Rust.bind_eq_ok_iff.mp h
  cases hre
  dsimp only at hstart hend hpieces
  rw [hstart, hend] at hpieces
  exact ⟨hstart, hend, parseConcat_of_parseSequence hpattern hpieces⟩

/-- `l|r` compiles to one piece with the nodes of both. -/
theorem compile_alternation {l r : String} {left right : Regex} (hl : '|' ∉ l.toList)
    (hr : '|' ∉ r.toList) (hleft : compile l = .ok left) (hright : compile r = .ok right)
    (hls : left.anchorStart = false) (hle : left.anchorEnd = false)
    (hrs : right.anchorStart = false) (hre : right.anchorEnd = false) :
    compile (l ++ "|" ++ r) = .ok
      { pieces := [⟨.alternation (left.pieces.map Piece.node) (right.pieces.map Piece.node), .one⟩]
        anchorStart := false
        anchorEnd := false } := by
  obtain ⟨hlhead, -, hlconcat⟩ := of_compile hl hleft hls hle
  obtain ⟨-, hrlast, hrconcat⟩ := of_compile hr hright hrs hre
  have hchars : (l ++ "|" ++ r).toList = l.toList ++ '|' :: r.toList := by simp
  have hhead : ((l.toList ++ '|' :: r.toList).head? == some '^') = false := by
    cases hlist : l.toList with
    | nil => rfl
    | cons c cs =>
      rw [hlist] at hlhead
      exact hlhead
  have hend : endsInDollar (l.toList ++ '|' :: r.toList) = false := by
    rw [endsInDollar_append, hrlast]
  have hpieces : parseSequence 0 (l.toList ++ '|' :: r.toList) = .ok
      [⟨.alternation (left.pieces.map Piece.node) (right.pieces.map Piece.node), .one⟩] := by
    rw [parseSequence, parseConcat_append hlconcat, Rust.ok_bind]
    dsimp only
    rw [parseAlternatives.eq_def]
    simp only [List.length_cons, Nat.zero_lt_succ, true_and, if_true]
    split
    · next heq => cases hrconcat.symm.trans heq
    · next heq =>
      cases hrconcat.symm.trans heq
      exact parseAlternatives_nil _
  rw [compile, hchars, ← endsInDollar]
  simp only [hhead, hend, Bool.false_eq_true, if_false, hpieces, Rust.ok_bind]
  rfl

/-! ### Matching -/

/-- Some part of the text is a match of the pieces. -/
def Appears (ps : List Piece) (text : String) : Prop :=
  ∃ before w after, text.toList = before ++ w ++ after ∧ Matches ps w

theorem isMatch_iff_exists_tail {re : Regex} (hstart : re.anchorStart = false)
    (hend : re.anchorEnd = false) (text : String) :
    re.isMatch text = true ↔
      ∃ before rest, text.toList = before ++ rest ∧ backtrack re.pieces rest ≠ none := by
  rw [Regex.isMatch, Regex.find, hstart, if_neg Bool.false_ne_true, List.findSome?_isSome_iff]
  have htry : ∀ rest, re.tryMatchAt rest = backtrack re.pieces rest := by
    intro rest
    apply Option.ext
    intro left
    rw [Regex.tryMatchAt_eq_some_iff, hend]
    simp
  constructor
  · rintro ⟨rest, hrest, hsome⟩
    obtain ⟨before, heq⟩ := (List.mem_tails _ _).mp hrest
    rw [Option.isSome_map, htry] at hsome
    exact ⟨before, rest, heq.symm, Option.isSome_iff_ne_none.mp hsome⟩
  · rintro ⟨before, rest, heq, hne⟩
    refine ⟨rest, (List.mem_tails _ _).mpr ⟨before, heq.symm⟩, ?_⟩
    rw [Option.isSome_map, htry]
    exact Option.isSome_iff_ne_none.mpr hne

/-- The backtracker succeeds at some position exactly if the pieces match somewhere. -/
theorem appears_iff {ps : List Piece} (hps : ∀ p ∈ ps, p.node.Simple) (text : String) :
    Appears ps text ↔ ∃ before rest, text.toList = before ++ rest ∧ backtrack ps rest ≠ none := by
  constructor
  · rintro ⟨before, w, after, htext, hw⟩
    exact ⟨before, w ++ after, by rw [htext, List.append_assoc], backtrack_ne_none hps hw⟩
  · rintro ⟨before, rest, htext, hne⟩
    obtain ⟨left, hleft⟩ := Option.ne_none_iff_exists'.mp hne
    obtain ⟨w, rfl, hw⟩ := matches_of_backtrack hps hleft
    exact ⟨before, w, left, by rw [htext, List.append_assoc], hw⟩

theorem simple_arm {ps : List Piece} (hps : ∀ p ∈ ps, p.node.Simple) :
    ∀ p ∈ arm (ps.map Piece.node), p.node.Simple := by
  intro p hp
  obtain ⟨node, hnode, rfl⟩ := List.mem_map.mp hp
  obtain ⟨q, hq, rfl⟩ := List.mem_map.mp hnode
  exact hps q hq

/-- Every quantifier allows one repetition. -/
theorem Matches.of_arm {ps : List Piece} {w : List Char}
    (h : Matches (arm (ps.map Piece.node)) w) : Matches ps w := by
  induction ps generalizing w with
  | nil => exact h
  | cons p ps ih =>
    obtain ⟨u, v, rfl, ⟨hu, hlen⟩, hv⟩ := h
    refine ⟨u, v, rfl, ⟨hu, ?_⟩, ih hv⟩
    have hone : u.length = 1 := hlen
    rw [hone]
    cases p.quantifier with
    | one => rfl
    | zeroOrMore => trivial
    | oneOrMore => exact le_rfl
    | zeroOrOne => exact le_rfl

theorem backtrack_alternation (left right : List Node) (text : List Char) :
    backtrack [⟨.alternation left right, .one⟩] text ≠ none ↔
      backtrack (arm left) text ≠ none ∨ backtrack (arm right) text ≠ none := by
  have hnil : (fun after => backtrack [] after) = some := by
    funext after
    rw [backtrack]
  rw [backtrack]
  simp only [hnil]
  cases backtrack (arm left) text with
  | none => simp
  | some after => simp

/-- `l|r` matches a text in which `l` or `r` does exactly if one of them does with every node taken
once: nothing is found where a match needs a quantifier. -/
theorem isMatch_alternation_iff {l r : String} {left right : Regex} (hl : '|' ∉ l.toList)
    (hr : '|' ∉ r.toList) (hleft : compile l = .ok left) (hright : compile r = .ok right)
    (hls : left.anchorStart = false) (hle : left.anchorEnd = false)
    (hrs : right.anchorStart = false) (hre : right.anchorEnd = false) (text : String) :
    ∃ re, compile (l ++ "|" ++ r) = .ok re ∧
      ((re.isMatch text = true ↔ left.isMatch text = true ∨ right.isMatch text = true) ↔
        (Appears left.pieces text ∨ Appears right.pieces text →
          Appears (arm (left.pieces.map Piece.node)) text ∨
            Appears (arm (right.pieces.map Piece.node)) text)) := by
  have hlsimple := simple_of_compile hl hleft
  have hrsimple := simple_of_compile hr hright
  refine ⟨_, compile_alternation hl hr hleft hright hls hle hrs hre, ?_⟩
  rw [isMatch_iff_exists_tail rfl rfl, isMatch_iff_exists_tail hls hle,
    isMatch_iff_exists_tail hrs hre, ← appears_iff hlsimple, ← appears_iff hrsimple]
  simp only [backtrack_alternation, and_or_left, exists_or]
  rw [← appears_iff (simple_arm hlsimple), ← appears_iff (simple_arm hrsimple)]
  have honce : ∀ ps, Appears (arm (ps.map Piece.node)) text → Appears ps text := by
    rintro ps ⟨before, w, after, htext, hw⟩
    exact ⟨before, w, after, htext, hw.of_arm⟩
  exact ⟨fun h => h.mpr, fun h => ⟨Or.imp (honce _) (honce _), h⟩⟩

/-- The pattern `a*`. -/
def anyAs : Regex :=
  { pieces := [⟨.literal 'a', .zeroOrMore⟩], anchorStart := false, anchorEnd := false }

/-- The pattern `b`. -/
def oneB : Regex := { pieces := [⟨.literal 'b', .one⟩], anchorStart := false, anchorEnd := false }

theorem compile_anyAs : compile "a*" = .ok anyAs := by
  have hatom : parseAtom 'a' ['*'] = .ok (.literal 'a', ['*']) := rfl
  have hconcat : parseConcat 0 ['a', '*'] = .ok (anyAs.pieces, []) := by
    rw [parseConcat_cons (by decide) hatom]
    show (parseConcat 0 []).map _ = _
    rw [parseConcat]
    rfl
  show (parseSequence 0 ['a', '*']).bind _ = _
  rw [parseSequence, hconcat]
  show (parseAlternatives 0 anyAs.pieces []).bind _ = _
  rw [parseAlternatives_nil]
  rfl

theorem compile_oneB : compile "b" = .ok oneB := by
  have hatom : parseAtom 'b' [] = .ok (.literal 'b', []) := rfl
  have hconcat : parseConcat 0 ['b'] = .ok (oneB.pieces, []) := by
    rw [parseConcat_cons (by decide) hatom]
    show (parseConcat 0 []).map _ = _
    rw [parseConcat]
    rfl
  show (parseSequence 0 ['b']).bind _ = _
  rw [parseSequence, hconcat]
  show (parseAlternatives 0 oneB.pieces []).bind _ = _
  rw [parseAlternatives_nil]
  rfl

theorem isMatch_alternation_iff_anyAs :
    ∃ re, compile ("a*" ++ "|" ++ "b") = .ok re ∧
      ((re.isMatch "b" = true ↔ anyAs.isMatch "b" = true ∨ oneB.isMatch "b" = true) ↔
        (Appears anyAs.pieces "b" ∨ Appears oneB.pieces "b" →
          Appears (arm (anyAs.pieces.map Piece.node)) "b" ∨
            Appears (arm (oneB.pieces.map Piece.node)) "b")) :=
  isMatch_alternation_iff (by decide) (by decide) compile_anyAs compile_oneB rfl rfl rfl rfl "b"

theorem backtrack_once_nil {node : Node} (h : node.Simple) :
    backtrack [⟨node, .one⟩] [] = none := by
  rw [backtrack_cons h]
  rfl

/-- `a*` matches the empty text, `a*|b` does not. -/
theorem isMatch_alternation_drops_star :
    compile "a*" = .ok anyAs ∧ compile "b" = .ok oneB ∧ anyAs.isMatch "" = true ∧
      ∃ re, compile ("a*" ++ "|" ++ "b") = .ok re ∧ re.isMatch "" = false := by
  have hempty : Matches anyAs.pieces [] :=
    ⟨[], [], rfl, ⟨List.forall_mem_nil _, trivial⟩, rfl⟩
  have hsimple : ∀ p ∈ anyAs.pieces, p.node.Simple := List.forall_mem_singleton.mpr trivial
  have hstar : anyAs.isMatch "" = true := by
    apply (isMatch_iff_exists_tail rfl rfl "").mpr
    exact ⟨[], [] ++ [], rfl, backtrack_ne_none hsimple hempty⟩
  refine ⟨compile_anyAs, compile_oneB, hstar, _,
    compile_alternation (by decide) (by decide) compile_anyAs compile_oneB rfl rfl rfl rfl, ?_⟩
  rw [Bool.eq_false_iff]
  intro hmatch
  obtain ⟨before, rest, htext, hne⟩ := (isMatch_iff_exists_tail rfl rfl "").mp hmatch
  obtain rfl : rest = [] := (List.append_eq_nil_iff.mp htext.symm).2
  rcases (backtrack_alternation _ _ _).mp hne with hne | hne
  · exact hne (backtrack_once_nil trivial)
  · exact hne (backtrack_once_nil trivial)

end MerlionKernel.Regexp
