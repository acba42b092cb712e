import MerlionKernel.Rust.Bytes

/-!
# Glob patterns

The matcher of `glob.rs`. `match_recursive` walks over the pattern and the text together and
remembers the last `*` it has passed: on a mismatch it goes back there and lets the `*` stand for
one byte more, unless that byte is a slash. `**` tries the rest of the pattern at every suffix of
the text.

Positions are kept as what is left of the pattern and of the text. Instead of `star_ti` the model
has the bytes matched since the last `*`.
-/

namespace MerlionKernel.Glob

open Rust

/-- `b'/'`. -/
abbrev slash : UInt8 := 47

/-- `b'*'`. -/
abbrev star : UInt8 := 42

/-- `b'?'`. -/
abbrev question : UInt8 := 63

/-- `b'['`. -/
abbrev bracket : UInt8 := 91

/-! ### Classes -/

/-- The loop of `match_class` over what is left of the class, at position `i`. -/
def classLoop (ch : UInt8) : Bytes → Nat → Bool → Option (Bool × Nat)
  | [], _, _ => none
  | c :: rest, i, found =>
    if c = 93 then some (found, i + 1)
    else
      match rest with
      | dash :: hi :: rest' =>
        if dash = 45 ∧ hi ≠ 93 then classLoop ch rest' (i + 3) (found || (c ≤ ch && ch ≤ hi))
        else classLoop ch (dash :: hi :: rest') (i + 1) (found || c == ch)
      | rest => classLoop ch rest (i + 1) (found || c == ch)

/-- `match_class`: whether the class at the start of the pattern admits the byte, and how long it
is; `none` if it is malformed. -/
def matchClass (pat : Bytes) (ch : UInt8) : Option (Bool × Nat) :=
  match pat with
  | [] => none
  | c :: body =>
    if c ≠ bracket then none
    else if body.head? = some 33 then
      (classLoop ch body.tail 2 false).map fun (found, stop) => (!found, stop)
    else classLoop ch body 1 false

/-! ### Matching -/

/-- The rest of the pattern, when its first part other than a `*` matches the byte. -/
def consume (pat : Bytes) (c : UInt8) : Option Bytes :=
  match pat with
  | [] => none
  | p :: rest =>
    if p = question ∧ c ≠ slash then some rest
    else if p = bracket then
      match matchClass pat c with
      | some (true, advance) => some (pat.drop advance)
      | _ => none
    else if p = c then some rest
    else none

/-- The rest of a pattern that begins with `**`, without a slash behind it. -/
def afterDouble : Bytes → Option Bytes
  | p :: p' :: rest =>
    if p = star ∧ p' = star then some (if rest.head? = some slash then rest.tail else rest)
    else none
  | _ => none

/-- How often the loop can still go back. -/
def retries (txt : Bytes) : Option (Bytes × Bytes) → Nat
  | none => txt.length + 1
  | some (_, seen) => seen.length + txt.length

/-- The loop of `match_recursive`; `inner` is the recursive call. The last `*` is kept as the
pattern behind it and the bytes matched since. -/
def matchLoop (inner : Bytes → Bytes → Bool) (pat txt : Bytes) (last : Option (Bytes × Bytes)) :
    Bool :=
  match txt with
  | [] => (pat.dropWhile (· == star)).isEmpty
  | c :: txt' =>
    match afterDouble pat with
    | some rest => (c :: txt').tails.any (inner rest)
    | none =>
      if pat.head? = some star then
        matchLoop inner pat.tail (c :: txt') (some (pat.tail, []))
      else
        match consume pat c with
        | some pat' => matchLoop inner pat' txt' (last.map fun (p, seen) => (p, seen ++ [c]))
        | none =>
          match last with
          | none => false
          | some (p, seen) =>
            -- The `*` takes one byte more, and the pattern behind it starts again.
            if (seen ++ c :: txt').head? = some slash then false
            else matchLoop inner p (seen ++ c :: txt').tail (some (p, []))
termination_by (retries txt last, txt.length, pat.length)
decreasing_by
  · next hstar =>
    have hpat : pat.tail.length < pat.length := by
      cases pat with
      | nil => cases hstar
      | cons p rest => exact Nat.lt_succ_self _
    rw [Prod.lex_def, Prod.lex_def]
    rcases last with - | ⟨p, seen⟩
    · refine .inl ?_
      simp [retries]
    · rcases seen with - | ⟨b, seen⟩
      · exact .inr ⟨rfl, .inr ⟨rfl, hpat⟩⟩
      · refine .inl ?_
        simp [retries]
  · rw [Prod.lex_def, Prod.lex_def]
    rcases last with - | ⟨p, seen⟩
    · exact .inl (Nat.lt_succ_self _)
    · refine .inr ⟨?_, .inl (Nat.lt_succ_self _)⟩
      simp [retries]
      omega
  · rw [Prod.lex_def, Prod.lex_def]
    refine .inl ?_
    simp [retries]

/-- `match_recursive`, up to a number of nested `**`. -/
def matchRecursive : Nat → Bytes → Bytes → Bool
  | 0, _, _ => false
  | depth + 1, pat, txt => matchLoop (matchRecursive depth) pat txt none

/-- `glob_match`. Every `**` is longer than one byte, so the nesting is less than the length. -/
def globMatch (pattern text : Bytes) : Bool := matchRecursive (pattern.length + 1) pattern text

end MerlionKernel.Glob
