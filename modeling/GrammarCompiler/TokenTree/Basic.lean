import GrammarCompiler.Text.Position

/-!
# Token trees

A grammar is read as token trees: identifiers, literals and single punctuation characters,
with everything between matching delimiters gathered into a group. Every tree knows where it
was written, because error messages and the token table speak of places.
-/

namespace GrammarCompiler

open Text (Position)

inductive Delimiter where
  | parenthesis
  | bracket
  | brace
deriving Repr, DecidableEq

namespace Delimiter

def opening? : Char → Option Delimiter
  | '(' => some parenthesis
  | '[' => some bracket
  | '{' => some brace
  | _ => none

def closing? : Char → Option Delimiter
  | ')' => some parenthesis
  | ']' => some bracket
  | '}' => some brace
  | _ => none

end Delimiter

/-- A token that is not a delimiter. Punctuation is `joint` when more of it follows at once,
as the `+` of `+=`. Identifiers and literals are kept as they were written. -/
inductive Leaf where
  | ident (text : String)
  | literal (text : String)
  | punct (char : Char) (joint : Bool)
deriving Repr, DecidableEq

/-- A token, or a group of trees between matching delimiters. -/
inductive TokenTree where
  | leaf (token : Leaf) (position : Position)
  | group (delimiter : Delimiter) (opened closed : Position) (body : List TokenTree)
deriving Repr

namespace TokenTree

/-- Where a tree begins: a group begins at its opening delimiter. -/
def position : TokenTree → Position
  | leaf _ p => p
  | group _ opened _ _ => opened

/-! ## Size

The number of nodes bounds every descent into a list of trees. -/

mutual
/-- Number of leaves and groups of a tree. -/
def size : TokenTree → Nat
  | leaf _ _ => 1
  | group _ _ _ body => sizes body + 1

def sizes : List TokenTree → Nat
  | [] => 0
  | t :: ts => size t + sizes ts
end

theorem size_pos (t : TokenTree) : 0 < t.size := by
  cases t <;> simp [size]

/-! ## Width in the token table

Parentheses are tokens of their own in the token table; a group in braces or brackets is one
opaque token. -/

mutual
/-- Number of tokens that a tree takes in the token table. -/
def width : TokenTree → Nat
  | leaf _ _ => 1
  | group .parenthesis _ _ body => widths body + 2
  | group .bracket _ _ _ => 1
  | group .brace _ _ _ => 1

/-- Number of tokens that a list of trees takes in the token table. -/
def widths : List TokenTree → Nat
  | [] => 0
  | t :: ts => width t + widths ts
end

end TokenTree

end GrammarCompiler
