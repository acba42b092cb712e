import MerlionKernel.Theory.Procedures

/-!
# The scripting language of the shell

The tokeniser and the parser of `shell_lang.rs`. The cursor of the parser is the list of the tokens
that are left. The functions of the parser call each other without a bound: they are
procedures, and `parse` runs them with calls up to a depth.
-/

namespace MerlionKernel.ShellLang

open Rust Theory

/-! ### Tokens -/

inductive Tok
  | word (w : String)
  | semi
  | nl
  | and
  | or
  | not
  deriving DecidableEq

/-- The characters that end a word. -/
def endsWord (c : Char) : Bool := [' ', '\t', '\n', ';', '|', '&', '#'].contains c

/-- One round of the tokeniser at a character: the token, if any, and the text that is left. -/
def scan (c : Char) (cs : List Char) : Option Tok × List Char :=
  if c = ' ' ∨ c = '\t' then (none, cs)
  else if c = '#' then (none, cs.dropWhile (· ≠ '\n'))
  else if c = '\n' then (some .nl, cs)
  else if c = ';' then (some .semi, cs)
  else if c = '&' then if cs.head? = some '&' then (some .and, cs.tail) else (none, cs)
  else if c = '|' then if cs.head? = some '|' then (some .or, cs.tail) else (none, cs)
  else if c = '!' then (some .not, cs)
  else if c = '\x22' ∨ c = '\x27' then
    (some (.word (.ofList (cs.takeWhile (· ≠ c)))), (cs.dropWhile (· ≠ c)).tail)
  else
    let w := (c :: cs).takeWhile fun c => !endsWord c
    (if w.isEmpty then none else some (.word (.ofList w)), (c :: cs).dropWhile fun c => !endsWord c)

def tokeniseFrom : Nat → List Char → Exec (List Tok)
  | 0, _ => .error .diverge
  | _ + 1, [] => return []
  | fuel + 1, c :: cs => do
    let ts ← tokeniseFrom fuel (scan c cs).2
    return (scan c cs).1.toList ++ ts

def tokenise (src : List Char) : Exec (List Tok) := tokeniseFrom (src.length + 1) src

/-! ### Statements -/

inductive Stmt
  | simple (words : List String)
  | ifStmt (cond thenB elseB : List Stmt)
  | forStmt (var : String) (words : List String) (body : List Stmt)
  | whileStmt (cond body : List Stmt)
  | funcDef (name : String) (body : List Stmt)
  | breakStmt
  | continueStmt
  | returnStmt (code : Int)
  | and (left right : Stmt)
  | or (left right : Stmt)
  | not (inner : Stmt)

/-- The calls of the parser. -/
inductive Call
  | list (stop : List String) (ts : List Tok)
  | one (ts : List Tok)
  | primary (ts : List Tok)

/-- What a call returns, with the tokens that are left. -/
def Call.Answer : Call → Type
  | .list _ _ => List Stmt × List Tok
  | .one _ => Option Stmt × List Tok
  | .primary _ => Option Stmt × List Tok

abbrev Parser := Prog Call.Answer

def callList (stop : List String) (ts : List Tok) : Parser (List Stmt × List Tok) :=
  Prog.ask (Call.list stop ts)

def callOne (ts : List Tok) : Parser (Option Stmt × List Tok) :=
  Prog.ask (Call.one ts)

def callPrimary (ts : List Tok) : Parser (Option Stmt × List Tok) :=
  Prog.ask (Call.primary ts)

/-! ### The parser -/

def skipSep (ts : List Tok) : List Tok := ts.dropWhile fun t => t = .semi ∨ t = .nl

def eat (w : String) (ts : List Tok) : Bool × List Tok :=
  match skipSep ts with
  | .word x :: ts => if x = w then (true, ts) else (false, .word x :: ts)
  | ts => (false, ts)

/-- The token is one of the words. -/
def Tok.isOneOf (words : List String) : Tok → Bool
  | .word w => words.contains w
  | _ => false

/-- One round of `parse_list`, and the rounds that follow. -/
def parseList (stop : List String) (ts : List Tok) : Parser (List Stmt × List Tok) :=
  match skipSep ts with
  | [] => return ([], [])
  | t :: ts =>
    if t.isOneOf stop then return ([], t :: ts)
    else do
      let (s, ts) ← callOne (t :: ts)
      let (v, ts) ← callList stop ts
      return (s.toList ++ v, ts)

/-- The test for `||` in `parse_one`, which reads the token at the cursor. -/
def parseOr (left : Stmt) : List Tok → Parser (Option Stmt × List Tok)
  | [] => .fault .index
  | .or :: ts => do
    let (right, ts) ← callOne (skipSep ts)
    return (some (right.elim left (.or left)), ts)
  | ts => return (some left, ts)

def parseOne (ts : List Tok) : Parser (Option Stmt × List Tok) := do
  let (left, ts) ← callPrimary ts
  match left, ts with
  | none, ts => return (none, ts)
  | some left, [] => return (some left, [])
  | some left, .and :: ts => do
    let (right, ts) ← callOne (skipSep ts)
    match right with
    | some right => return (some (.and left right), ts)
    | none => parseOr left ts
  | some left, ts => parseOr left ts

def parseIf (ts : List Tok) : Parser (Stmt × List Tok) := do
  let (cond, ts) ← callList ["then"] ts
  let (thenB, ts) ← callList ["else", "fi"] (eat "then" ts).2
  let (found, ts) := eat "else" ts
  let (elseB, ts) ← if found then callList ["fi"] ts else pure ([], ts)
  return (.ifStmt cond thenB elseB, (eat "fi" ts).2)

/-- The words of a `for`, up to `do`. -/
def forWords : List Tok → List String × List Tok
  | .semi :: ts => forWords ts
  | .nl :: ts => forWords ts
  | .word w :: ts =>
    if w = "do" then ([], .word w :: ts) else (w :: (forWords ts).1, (forWords ts).2)
  | ts => ([], ts)

def forVar : List Tok → String × List Tok
  | .word w :: ts => (w, ts)
  | ts => ("_", ts)

def parseFor (ts : List Tok) : Parser (Stmt × List Tok) := do
  let (var, ts) := forVar ts
  let (words, ts) := forWords (eat "in" ts).2
  let (body, ts) ← callList ["done"] (eat "do" ts).2
  return (.forStmt var words body, (eat "done" ts).2)

def parseWhile (ts : List Tok) : Parser (Stmt × List Tok) := do
  let (cond, ts) ← callList ["do"] ts
  let (body, ts) ← callList ["done"] (eat "do" ts).2
  return (.whileStmt cond body, (eat "done" ts).2)

/-- The parentheses after the name of a function. -/
def skipParens : List Tok → List Tok
  | .word x :: .word y :: ts =>
    if x = "()" ∨ x = "(" then if y = ")" then ts else .word y :: ts
    else .word x :: .word y :: ts
  | .word x :: ts => if x = "()" ∨ x = "(" then ts else .word x :: ts
  | ts => ts

def funcName : List Tok → String × List Tok
  | .word w :: ts => (w, skipParens ts)
  | ts => ("_anon", ts)

def parseFunc (ts : List Tok) : Parser (Stmt × List Tok) := do
  let (name, ts) := funcName ts
  let (body, ts) ← callList ["\x7d"] (eat "\x7b" ts).2
  return (.funcDef name body, (eat "\x7d" ts).2)

/-- `str::parse::<i64>`. -/
def parseI64 (s : String) : Option Int :=
  let value (ds : List Char) : Option Int :=
    if ds.isEmpty ∨ ds.any (fun c => !c.isDigit) then none
    else some (ds.foldl (fun n c => 10 * n + (c.toNat - 48 : Nat)) 0)
  let signed := match s.toList with
    | '-' :: ds => (value ds).map (- ·)
    | '+' :: ds => value ds
    | ds => value ds
  signed.filter fun n => -9223372036854775808 ≤ n ∧ n < 9223372036854775808

/-- The exit code after `return`. -/
def returnCode : List Tok → Int × List Tok
  | .word n :: ts =>
    match parseI64 n with
    | some code => (code, ts)
    | none => (0, .word n :: ts)
  | ts => (0, ts)

/-- The words that do not start or continue a simple command. -/
def reserved : List String := ["then", "else", "fi", "do", "done", "\x7d"]

/-- The words of a simple command. -/
def simpleWords : List Tok → List String × List Tok
  | .word w :: ts =>
    if reserved.contains w then ([], .word w :: ts)
    else (w :: (simpleWords ts).1, (simpleWords ts).2)
  | ts => ([], ts)

def parseSimple (ts : List Tok) : Option Stmt × List Tok :=
  let ws := (simpleWords ts).1
  (if ws.isEmpty then none else some (.simple ws), (simpleWords ts).2)

def parsePrimary : List Tok → Parser (Option Stmt × List Tok)
  | [] => return (none, [])
  | .not :: ts => do
    let (inner, ts) ← callPrimary ts
    return (inner.map .not, ts)
  | .word w :: ts =>
    match w with
    | "if" => do
      let (s, ts) ← parseIf ts
      return (some s, ts)
    | "for" => do
      let (s, ts) ← parseFor ts
      return (some s, ts)
    | "while" => do
      let (s, ts) ← parseWhile ts
      return (some s, ts)
    | "function" => do
      let (s, ts) ← parseFunc ts
      return (some s, ts)
    | "break" => return (some .breakStmt, ts)
    | "continue" => return (some .continueStmt, ts)
    | "return" => return (some (.returnStmt (returnCode ts).1), (returnCode ts).2)
    | w => return parseSimple (.word w :: ts)
  | ts => return parseSimple ts

/-- The bodies of the procedures. -/
def body : ∀ c : Call, Parser c.Answer
  | .list stop ts => parseList stop ts
  | .one ts => parseOne ts
  | .primary ts => parsePrimary ts

def parse (depth : Nat) (ts : List Tok) : Exec (List Stmt) := do
  let out : List Stmt × List Tok ← eval body depth (.list [] ts)
  return out.1

end MerlionKernel.ShellLang
