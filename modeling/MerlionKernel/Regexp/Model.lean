import Mathlib.Data.List.Infix

/-!
# Regular expressions

The engine of `regex.rs`: a pattern is parsed into pieces, a node with a quantifier each, and a
backtracking matcher tries the longest repetition of every piece first. A `$` at the end of the
pattern is checked only after the matcher has returned its first success.

A position, in the pattern as in the text, is kept as what is left from there on.
-/

namespace MerlionKernel.Regexp

/-- `ClassItem`. -/
inductive ClassItem
  | single (c : Char)
  | range (lo hi : Char)

/-- `ShorthandKind`. -/
inductive ShorthandKind
  | digit
  | word
  | space

/-- `Node`. -/
inductive Node
  | literal (c : Char)
  | anyChar
  | cls (items : List ClassItem) (negated : Bool)
  | shorthand (kind : ShorthandKind)
  | alternation (left right : List Node)

/-- `Quantifier`. -/
inductive Quantifier
  | one
  | zeroOrMore
  | oneOrMore
  | zeroOrOne

/-- `Piece`. -/
structure Piece where
  node : Node
  quantifier : Quantifier

/-- `Regex`. -/
structure Regex where
  pieces : List Piece
  anchorStart : Bool
  anchorEnd : Bool

/-! ### Parsing -/

/-- The loop of `parse_class` over the items. -/
def classItems : List Char → List ClassItem × List Char
  | [] => ([], [])
  | ch :: rest =>
    if ch = ']' then ([], ch :: rest)
    else
      match rest with
      | dash :: stop :: rest' =>
        if dash = '-' ∧ stop ≠ ']' then
          let (items, left) := classItems rest'
          (.range ch stop :: items, left)
        else
          let (items, left) := classItems (dash :: stop :: rest')
          (.single ch :: items, left)
      | rest =>
        let (items, left) := classItems rest
        (.single ch :: items, left)

/-- `parse_class`. -/
def parseClass (chars : List Char) : Except String ((List ClassItem × Bool) × List Char) :=
  let negated := chars.head? == some '^'
  match classItems (if negated then chars.tail else chars) with
  | (_, []) => .error "unterminated character class"
  | (items, _ :: rest) => .ok ((items, negated), rest)

/-- `parse_escape`. -/
def parseEscape : List Char → Except String (Node × List Char)
  | [] => .error "trailing backslash"
  | ch :: rest =>
    match ch with
    | 'd' => .ok (.shorthand .digit, rest)
    | 'w' => .ok (.shorthand .word, rest)
    | 's' => .ok (.shorthand .space, rest)
    | _ => .ok (.literal ch, rest)

/-- `parse_atom`, at a position that has a character. -/
def parseAtom (ch : Char) (rest : List Char) : Except String (Node × List Char) :=
  match ch with
  | '.' => .ok (.anyChar, rest)
  | '\\' => parseEscape rest
  | '[' => (parseClass rest).map fun ((items, negated), rest) => (.cls items negated, rest)
  | _ => .ok (.literal ch, rest)

/-- The quantifier behind an atom; `behind` is the number of characters behind the end. -/
def parseQuantifier (behind : Nat) (chars : List Char) : Quantifier × List Char :=
  match chars with
  | [] => (.one, [])
  | ch :: rest =>
    if behind < (ch :: rest).length then
      match ch with
      | '*' => (.zeroOrMore, rest)
      | '+' => (.oneOrMore, rest)
      | '?' => (.zeroOrOne, rest)
      | _ => (.one, ch :: rest)
    else (.one, ch :: rest)

/-- A node that is matched against one character. -/
def Node.Simple : Node → Prop
  | .alternation _ _ => False
  | _ => True

theorem classItems_suffix (chars : List Char) : (classItems chars).2 <:+ chars := by
  fun_induction classItems chars with
  | case1 => exact List.suffix_rfl
  | case2 rest => exact List.suffix_rfl
  | case3 ch h dash stop rest hrange items left heq ih =>
    rw [heq] at ih
    exact ih.trans (List.suffix_append [ch, dash, stop] rest)
  | case4 ch h dash stop rest hrange items left heq ih =>
    rw [heq] at ih
    exact ih.trans (List.suffix_cons _ _)
  | case5 ch h rest hrest items left heq ih =>
    rw [heq] at ih
    exact ih.trans (List.suffix_cons _ _)

theorem parseClass_suffix {chars left : List Char} {result : List ClassItem × Bool}
    (h : parseClass chars = .ok (result, left)) : left <:+ chars := by
  unfold parseClass at h
  dsimp only at h
  have hsuffix := classItems_suffix
    (if (chars.head? == some '^') = true then chars.tail else chars)
  split at h
  · cases h
  · next items c rest heq =>
    cases h
    rw [heq] at hsuffix
    refine (List.suffix_cons _ _).trans (hsuffix.trans ?_)
    split
    · exact List.tail_suffix _
    · exact List.suffix_rfl

/-- An atom is simple, and nothing behind it is skipped. -/
theorem of_parseAtom {ch : Char} {rest left : List Char} {node : Node}
    (h : parseAtom ch rest = .ok (node, left)) : node.Simple ∧ left <:+ rest := by
  unfold parseAtom at h
  split at h
  · cases h
    exact ⟨trivial, List.suffix_rfl⟩
  · unfold parseEscape at h
    split at h
    · cases h
    · split at h
      all_goals
        cases h
        exact ⟨trivial, List.suffix_cons _ _⟩
  · cases hclass : parseClass rest with
    | error e =>
      rw [hclass] at h
      cases h
    | ok result =>
      rw [hclass] at h
      cases h
      exact ⟨trivial, parseClass_suffix hclass⟩
  · cases h
    exact ⟨trivial, List.suffix_rfl⟩

theorem parseQuantifier_suffix (behind : Nat) (chars : List Char) :
    (parseQuantifier behind chars).2 <:+ chars := by
  unfold parseQuantifier
  split
  · exact List.suffix_rfl
  · split
    · split
      · exact List.suffix_cons _ _
      · exact List.suffix_cons _ _
      · exact List.suffix_cons _ _
      · exact List.suffix_rfl
    · exact List.suffix_rfl

/-- `parse_concat`. -/
def parseConcat (behind : Nat) (chars : List Char) : Except String (List Piece × List Char) :=
  match chars with
  | [] => .ok ([], [])
  | ch :: rest =>
    if behind < (ch :: rest).length ∧ ch ≠ '|' then
      match _h : parseAtom ch rest with
      | .error e => .error e
      | .ok (node, left) =>
        (parseConcat behind (parseQuantifier behind left).2).map fun (pieces, stop) =>
          (⟨node, (parseQuantifier behind left).1⟩ :: pieces, stop)
    else .ok ([], ch :: rest)
termination_by chars.length
decreasing_by
  have hle := ((parseQuantifier_suffix behind left).trans (of_parseAtom _h).2).length_le
  exact Nat.lt_succ_of_le hle

/-- An atom and its quantifier are taken from the front. -/
theorem suffix_of_parseAtom {ch : Char} {rest left : List Char} {node : Node}
    (h : parseAtom ch rest = .ok (node, left)) (behind : Nat) :
    (parseQuantifier behind left).2 <:+ ch :: rest :=
  ((parseQuantifier_suffix behind left).trans (of_parseAtom h).2).trans (List.suffix_cons _ _)

theorem map_eq_ok {α β : Type} {x : Except String α} {f : α → β} {b : β}
    (h : x.map f = .ok b) : ∃ a, x = .ok a ∧ f a = b := by
  cases x with
  | error e => cases h
  | ok a => exact ⟨a, rfl, Except.ok.inj h⟩

/-- The pieces of a concatenation are simple, and nothing behind it is skipped. -/
theorem of_parseConcat {behind : Nat} {chars left : List Char} {pieces : List Piece}
    (h : parseConcat behind chars = .ok (pieces, left)) :
    (∀ p ∈ pieces, p.node.Simple) ∧ left <:+ chars := by
  fun_induction parseConcat behind chars generalizing pieces left with
  | case1 =>
    cases h
    exact ⟨List.forall_mem_nil _, List.suffix_rfl⟩
  | case2 ch rest hch e hatom => cases h
  | case3 ch rest hch node left' hatom ih =>
    obtain ⟨⟨tail, stop⟩, htail, heq⟩ := map_eq_ok h
    cases heq
    obtain ⟨hsimple, hsuffix⟩ := ih htail
    exact ⟨List.forall_mem_cons.mpr ⟨(of_parseAtom hatom).1, hsimple⟩,
      hsuffix.trans (suffix_of_parseAtom hatom behind)⟩
  | case4 ch rest hch =>
    cases h
    exact ⟨List.forall_mem_nil _, List.suffix_rfl⟩

theorem parseConcat_cons {ch : Char} {rest left : List Char} {node : Node} (hch : ch ≠ '|')
    (hatom : parseAtom ch rest = .ok (node, left)) :
    parseConcat 0 (ch :: rest) =
      (parseConcat 0 (parseQuantifier 0 left).2).map fun (pieces, stop) =>
        (⟨node, (parseQuantifier 0 left).1⟩ :: pieces, stop) := by
  rw [parseConcat, if_pos ⟨Nat.succ_pos _, hch⟩]
  split
  · next heq => cases hatom.symm.trans heq
  · next heq =>
    cases hatom.symm.trans heq
    rfl

/-- The loop of `parse_sequence` over the alternatives. -/
def parseAlternatives (behind : Nat) (left : List Piece) (chars : List Char) :
    Except String (List Piece) :=
  match chars with
  | [] => .ok left
  | ch :: rest =>
    if behind < (ch :: rest).length ∧ ch = '|' then
      match _h : parseConcat behind rest with
      | .error e => .error e
      | .ok (right, stop) =>
        parseAlternatives behind
          [⟨.alternation (left.map Piece.node) (right.map Piece.node), .one⟩] stop
    else .ok left
termination_by chars.length
decreasing_by exact Nat.lt_succ_of_le (of_parseConcat _h).2.length_le

theorem parseAlternatives_nil (pieces : List Piece) :
    parseAlternatives 0 pieces [] = .ok pieces := by
  rw [parseAlternatives.eq_def]

/-- `parse_sequence`. -/
def parseSequence (behind : Nat) (chars : List Char) : Except String (List Piece) := do
  let (left, rest) ← parseConcat behind chars
  parseAlternatives behind left rest

/-- `parse_pattern` and `Regex::compile`. -/
def compile (pattern : String) : Except String Regex := do
  let chars := pattern.toList
  let anchorStart := chars.head? == some '^'
  let anchorEnd := chars.getLast? == some '$' && chars.dropLast.getLast? != some '\\'
  let behind := if anchorEnd then 1 else 0
  let pieces ← parseSequence behind (if anchorStart then chars.tail else chars)
  pure { pieces, anchorStart, anchorEnd }

/-- A pattern without `|` is compiled as one concatenation. -/
theorem concat_of_compile {pattern : String} {re : Regex} (hpattern : '|' ∉ pattern.toList)
    (h : compile pattern = .ok re) :
    re.anchorStart = (pattern.toList.head? == some '^') ∧
      re.anchorEnd = (pattern.toList.getLast? == some '$' &&
        pattern.toList.dropLast.getLast? != some '\\') ∧
      ∃ stop, parseConcat (if re.anchorEnd then 1 else 0)
          (if re.anchorStart then pattern.toList.tail else pattern.toList) =
        .ok (re.pieces, stop) := by
  unfold compile parseSequence at h
  dsimp only at h
  generalize hanchor : (pattern.toList.getLast? == some '$' &&
    pattern.toList.dropLast.getLast? != some '\\') = anchorEnd at h
  generalize hchars : (if (pattern.toList.head? == some '^') = true then pattern.toList.tail
    else pattern.toList) = chars at h
  have hnotMem : '|' ∉ chars := by
    rw [← hchars]
    split
    · exact fun hmem => hpattern (List.mem_of_mem_tail hmem)
    · exact hpattern
  cases hconcat : parseConcat (if anchorEnd = true then 1 else 0) chars with
  | error e =>
    rw [hconcat] at h
    cases h
  | ok result =>
    obtain ⟨left, rest⟩ := result
    have hend : parseAlternatives (if anchorEnd = true then 1 else 0) left rest = .ok left := by
      rw [parseAlternatives.eq_def]
      cases rest with
      | nil => rfl
      | cons ch rest =>
        refine if_neg fun hbar => hnotMem ?_
        exact (of_parseConcat hconcat).2.subset (hbar.2 ▸ List.mem_cons_self)
    rw [hconcat] at h
    change (do let pieces ← parseAlternatives _ left rest; _) = _ at h
    rw [hend] at h
    cases h
    dsimp only
    exact ⟨rfl, rfl, rest, by rw [hchars]; exact hconcat⟩

/-- A pattern without `|` compiles to simple pieces. -/
theorem simple_of_compile {pattern : String} {re : Regex} (hpattern : '|' ∉ pattern.toList)
    (h : compile pattern = .ok re) : ∀ p ∈ re.pieces, p.node.Simple := by
  obtain ⟨-, -, stop, hconcat⟩ := concat_of_compile hpattern h
  exact (of_parseConcat hconcat).1

/-! ### Matching -/

/-- A class item admits the character. -/
def ClassItem.admits (ch : Char) : ClassItem → Bool
  | .single c => ch == c
  | .range lo hi => lo ≤ ch && ch ≤ hi

/-- `node_matches`. -/
def nodeMatches (node : Node) (ch : Char) : Bool :=
  match node with
  | .literal c => ch == c
  | .anyChar => ch != '\n'
  | .cls items negated =>
    let found := items.any (ClassItem.admits ch)
    if negated then !found else found
  | .shorthand .digit => ch.isDigit
  | .shorthand .word => ch.isAlphanum || ch == '_'
  | .shorthand .space => ch == ' ' || ch == '\t' || ch == '\n' || ch == '\r'
  | .alternation _ _ => false

/-- `for c in (least..=count).rev()`: the rest of the pieces is tried behind `c` characters. -/
def longestFirst (next : List Char → Option (List Char)) (text : List Char) (least count : Nat) :
    Option (List Char) :=
  (List.range' least (count + 1 - least)).reverse.findSome? fun c => next (text.drop c)

/-- `backtrack` at a piece with its quantifier; `next` matches the pieces behind it. -/
def quantified (piece : Piece) (next : List Char → Option (List Char)) (text : List Char) :
    Option (List Char) :=
  let count := (text.takeWhile (nodeMatches piece.node)).length
  let once :=
    match text with
    | c :: text' => if nodeMatches piece.node c then next text' else none
    | [] => none
  match piece.quantifier with
  | .one => once
  | .zeroOrOne => once.or (next text)
  | .zeroOrMore => longestFirst next text 0 count
  | .oneOrMore => if count = 0 then none else longestFirst next text 1 count

mutual
/-- The number of nodes, with those of the alternatives. -/
def Node.weight : Node → Nat
  | .alternation left right => weights left + weights right + 1
  | _ => 1

/-- The number of nodes of a list. -/
def weights : List Node → Nat
  | [] => 0
  | node :: nodes => node.weight + weights nodes
end

theorem Node.weight_pos (node : Node) : 0 < node.weight := by
  cases node <;> simp [Node.weight]

/-- The pieces of an arm of an alternation. -/
def arm (nodes : List Node) : List Piece := nodes.map fun node => { node, quantifier := .one }

theorem map_node_arm (nodes : List Node) : (arm nodes).map Piece.node = nodes := by
  rw [arm, List.map_map]
  exact List.map_id _

/-- `backtrack`: what is left of the text behind the first match that is found. -/
def backtrack (pieces : List Piece) (text : List Char) : Option (List Char) :=
  match pieces with
  | [] => some text
  | piece :: rest =>
    match _h : piece.node with
    | .alternation left right =>
      ((backtrack (arm left) text).bind fun after => backtrack rest after).or
        ((backtrack (arm right) text).bind fun after => backtrack rest after)
    | _ => quantified piece (fun after => backtrack rest after) text
termination_by weights (pieces.map Piece.node)
decreasing_by
  all_goals rw [List.map_cons, weights]
  · rw [_h, Node.weight, map_node_arm]
    omega
  · exact Nat.lt_add_of_pos_left (Node.weight_pos _)
  · rw [_h, Node.weight, map_node_arm]
    omega
  · exact Nat.lt_add_of_pos_left (Node.weight_pos _)
  · exact Nat.lt_add_of_pos_left (Node.weight_pos _)

/-- The length in bytes. -/
def byteLen : List Char → Nat
  | [] => 0
  | c :: chars => c.utf8Size + byteLen chars

namespace Regex

/-- `Regex::try_match_at`. -/
def tryMatchAt (re : Regex) (text : List Char) : Option (List Char) := do
  let result ← backtrack re.pieces text
  if re.anchorEnd && !result.isEmpty then none
  pure result

/-- The offset in bytes of the position where `rest` is left. -/
def byteOff (chars rest : List Char) : Nat := byteLen (chars.take (chars.length - rest.length))

/-- `Regex::find`. -/
def find (re : Regex) (text : String) : Option (Nat × Nat) :=
  let chars := text.toList
  if re.anchorStart then (re.tryMatchAt chars).map fun stop => (0, byteOff chars stop)
  else
    chars.tails.findSome? fun start =>
      (re.tryMatchAt start).map fun stop => (byteOff chars start, byteOff chars stop)

end Regex

end MerlionKernel.Regexp
