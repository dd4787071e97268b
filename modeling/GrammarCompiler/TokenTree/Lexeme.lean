import GrammarCompiler.Text.Blank
import GrammarCompiler.TokenTree.Basic
import GrammarCompiler.TokenTree.Literal

/-!
# Lexemes

The first step of reading a text: `scan` cuts it into lexemes, from left to right. A lexeme is
a leaf, an opening or closing delimiter, or a documentation comment. Blanks and all other
comments are dropped. Scanning never looks at how delimiters match; it goes on to the end of
the text or to the first place where no lexeme begins, which `Scan.stuck` reports.
-/

namespace GrammarCompiler

open Text (Position isGap isIdentStart identLength neverRaw)

/-- A piece of text that is read at once. -/
inductive Lexeme where
  | leaf (token : Leaf)
  | opening (delimiter : Delimiter)
  | closing (delimiter : Delimiter)
  /-- A documentation comment; an inner one describes what encloses it. -/
  | doc (inner : Bool) (text : String)
deriving Repr, DecidableEq

namespace Lexeme

/-! ## Comments -/

def lineLength (cs : List Char) : Nat :=
  (cs.takeWhile (· != '\n')).length

def blockLength (depth : Nat) : List Char → Option Nat
  | [] => none
  | '/' :: '*' :: cs => (blockLength (depth + 1) cs).map (· + 2)
  | '*' :: '/' :: cs => if depth ≤ 1 then some 2 else (blockLength (depth - 1) cs).map (· + 2)
  | _ :: cs => (blockLength depth cs).map (· + 1)

/-- Length of a comment that is dropped. Three slashes, or two and an exclamation mark, begin a
documentation comment, but four slashes do not; likewise for block comments. -/
def commentLength : List Char → Option Nat
  | '/' :: '/' :: '/' :: '/' :: cs => some (lineLength cs + 4)
  | '/' :: '/' :: '/' :: _ => none
  | '/' :: '/' :: '!' :: _ => none
  | '/' :: '/' :: cs => some (lineLength cs + 2)
  | '/' :: '*' :: '*' :: '/' :: _ => some 4
  | '/' :: '*' :: '*' :: '*' :: cs => blockLength 0 ('/' :: '*' :: '*' :: '*' :: cs)
  | '/' :: '*' :: '*' :: _ => none
  | '/' :: '*' :: '!' :: _ => none
  | '/' :: '*' :: cs => blockLength 0 ('/' :: '*' :: cs)
  | _ => none

/-- Whether a carriage return stands without a line feed behind it. -/
def hasBareReturn : List Char → Bool
  | [] => false
  | '\r' :: '\n' :: cs => hasBareReturn cs
  | c :: cs => c == '\r' || hasBareReturn cs

/-- The text of a line comment: a carriage return before the line feed is part of the line
end. -/
def docLine (cs : List Char) : List Char :=
  let line := cs.takeWhile (· != '\n')
  if (cs.drop line.length).head? = some '\n' && line.getLast? = some '\r' then line.dropLast
  else line

/-- A documentation comment at the head of a text, and its length. -/
def doc? (cs : List Char) : Option (Lexeme × Nat) :=
  let line (inner : Bool) (rest : List Char) : Option (Lexeme × Nat) :=
    if hasBareReturn (docLine rest) then none
    else some (.doc inner (String.ofList (docLine rest)), lineLength rest + 3)
  let block (inner : Bool) : Option (Lexeme × Nat) := do
    let n ← blockLength 0 cs
    let text := (cs.take (n - 2)).drop 3
    if hasBareReturn text then none else some (.doc inner (String.ofList text), n)
  match cs with
  | '/' :: '/' :: '!' :: rest => line true rest
  | '/' :: '*' :: '!' :: _ => block true
  | '/' :: '/' :: '/' :: rest => line false rest
  | '/' :: '*' :: '*' :: _ => block false
  | _ => none

/-! ## Leaves -/

def punctuation : List Char :=
  "~!@#$%^&*-=+|;:,<.>/?'".toList

def punct? : List Char → Option Char
  | '/' :: '/' :: _ => none
  | '/' :: '*' :: _ => none
  | c :: _ => if punctuation.contains c then some c else none
  | [] => none

/-- Length of an identifier, which may stand behind the raw mark `r#`. -/
def rawIdentLength : List Char → Option Nat
  | 'r' :: '#' :: cs => do
    let n ← identLength cs
    if neverRaw.contains (String.ofList (cs.take n)) then none else some (n + 2)
  | cs => identLength cs

/-- Beginnings of literals, which an identifier must not have: such a text is a broken literal
and not an identifier beside something else. -/
def literalStarts : List (List Char) :=
  ["r\"", "r#\"", "r##", "b\"", "b'", "br\"", "br#", "c\"", "cr\"", "cr#"].map String.toList

def identLength? (cs : List Char) : Option Nat :=
  if literalStarts.any (·.isPrefixOf cs) then none else rawIdentLength cs

/-- A quote mark that is punctuation begins a lifetime, an identifier without a closing mark. -/
def isLifetime (cs : List Char) : Bool :=
  match rawIdentLength cs with
  | none => false
  | some n =>
    match (cs.drop n).head? with
    | some '\'' => false
    | some '#' => ['r', '#'].isPrefixOf cs
    | _ => true

/-- The leaf at the head of a text, and its length. Literals go before punctuation and
punctuation before identifiers, since a quote may begin either of the first two and a letter
may begin a literal. -/
def leaf? (cs : List Char) : Option (Leaf × Nat) :=
  match Literal.length? cs with
  | some n => some (.literal (String.ofList (cs.take n)), n)
  | none =>
    match punct? cs with
    | some '\'' => if isLifetime (cs.drop 1) then some (.punct '\'' true, 1) else none
    | some c => some (.punct c (punct? (cs.drop 1)).isSome, 1)
    | none => (identLength? cs).map fun n => (.ident (String.ofList (cs.take n)), n)

/-! ## Scanning -/

/-- What stands at the head of a non-empty text, with the number of characters it takes
beyond the first. -/
inductive Head where
  | gap (more : Nat)
  | lexeme (lexeme : Lexeme) (more : Nat)
  | stuck
deriving Repr, DecidableEq

/-- Reads the head of the text `c :: cs`. Leaves go before delimiters, since the placeholder
begins with a parenthesis; no other leaf does. -/
def head (c : Char) (cs : List Char) : Head :=
  match commentLength (c :: cs) with
  | some n => .gap (n - 1)
  | none =>
    if isGap c then .gap 0
    else match doc? (c :: cs) with
      | some (lexeme, n) => .lexeme lexeme (n - 1)
      | none =>
        match leaf? (c :: cs), Delimiter.opening? c, Delimiter.closing? c with
        | some (token, n), _, _ => .lexeme (.leaf token) (n - 1)
        | none, some d, _ => .lexeme (.opening d) 0
        | none, none, some d => .lexeme (.closing d) 0
        | none, none, none => .stuck

end Lexeme

/-- A text cut into lexemes. When `stuck` is set, no lexeme begins at that place. -/
structure Scan where
  lexemes : List (Lexeme × Position)
  stuck : Option Position
deriving Repr, DecidableEq

namespace Scan

def cons (lexeme : Lexeme × Position) (scan : Scan) : Scan :=
  { scan with lexemes := lexeme :: scan.lexemes }

def scanFrom (p : Position) (cs : List Char) : Scan :=
  match cs with
  | [] => ⟨[], none⟩
  | c :: cs =>
    match Lexeme.head c cs with
    | .stuck => ⟨[], some p⟩
    | .gap more => scanFrom ((p.step c).after (cs.take more)) (cs.drop more)
    | .lexeme lexeme more =>
      cons (lexeme, p) (scanFrom ((p.step c).after (cs.take more)) (cs.drop more))
termination_by cs.length
decreasing_by all_goals simp only [List.length_drop, List.length_cons]; omega

/-- The mark that may stand before a text to tell its byte order. -/
def byteOrderMark : Char := '\ufeff'

/-- Scans a whole text. A byte order mark in front takes a column and is dropped. -/
def scan (source : String) : Scan :=
  match source.toList with
  | c :: cs => if c = byteOrderMark then scanFrom (Position.start.step c) cs
    else scanFrom Position.start (c :: cs)
  | [] => scanFrom Position.start []

end Scan

end GrammarCompiler
