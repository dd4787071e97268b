import GrammarCompiler.Ast.Basic
import GrammarCompiler.Ast.SyntaxError
import GrammarCompiler.TokenTree.Assemble

/-!
# A place among token trees

A cursor stands before some trees and knows the index of the next token in the token table.
Reading moves it forward; the types of the readers say that it never moves back (`Rest`) or
that it makes progress (`Shorter`), which is why reading ends.

Inside a group the index of a cursor behind the last tree is that of the closing parenthesis,
so an alternative in which nothing is written can be anchored at the token after it.
-/

namespace GrammarCompiler

open Text (Position)

/-- A place among token trees. -/
structure Cursor where
  trees : List TokenTree
  /-- Index of the next token. -/
  index : Nat
  /-- Where errors at the end of the trees are reported. -/
  ending : Position
  /-- The first token that was left over behind the argument of a lexer command. -/
  stray : Option Position
deriving Repr

namespace Cursor

/-- Number of leaves and groups ahead. -/
def size (c : Cursor) : Nat :=
  TokenTree.sizes c.trees

/-- A cursor at `c` or behind it. -/
abbrev Rest (c : Cursor) : Type := { d : Cursor // d.size ≤ c.size }

/-- A cursor behind `c`. -/
abbrev Shorter (c : Cursor) : Type := { d : Cursor // d.size < c.size }

/-- Where the next tree begins, or where errors at the end are reported. -/
def position (c : Cursor) : Position :=
  match c.trees with
  | [] => c.ending
  | t :: _ => t.position

def fail (c : Cursor) (cause : SyntaxCause) : SyntaxError :=
  ⟨cause, c.position⟩

/-- The error that something else was expected at the cursor. -/
def expected (c : Cursor) (what : Expectation) : SyntaxError :=
  c.fail (.expected what c.trees.isEmpty)

/-- The cursor behind the next tree, which takes `width` tokens and is followed by `rest`. -/
def behind (c : Cursor) (rest : List TokenTree) (width : Nat) : Cursor :=
  { c with trees := rest, index := c.index + width }

theorem size_behind_lt {c : Cursor} {t : TokenTree} {rest : List TokenTree}
    (h : c.trees = t :: rest) (width : Nat) : (c.behind rest width).size < c.size := by
  have := t.size_pos
  simp only [size, behind, h, TokenTree.sizes]
  omega

/-- The cursor at the beginning of a group that is the next tree. -/
def inside (c : Cursor) (body : List TokenTree) (closed : Position) : Cursor :=
  { c with trees := body, index := c.index + 1, ending := closed }

theorem size_inside_lt {c : Cursor} {d : Delimiter} {opened closed : Position}
    {body rest : List TokenTree} (h : c.trees = .group d opened closed body :: rest) :
    (c.inside body closed).size < c.size := by
  simp only [size, inside, h, TokenTree.sizes, TokenTree.size]
  omega

/-! ## Looking ahead -/

def atIdent (c : Cursor) : Bool :=
  match c.trees with
  | .leaf (.ident _) _ :: _ => true
  | _ => false

def atWord (c : Cursor) (word : String) : Bool :=
  match c.trees with
  | .leaf (.ident text) _ :: _ => text == word
  | _ => false

/-- Whether trees begin with given punctuation, all of it joint but for the last character. -/
def spells : List Char → List TokenTree → Bool
  | [], _ => true
  | [c], .leaf (.punct d _) _ :: _ => c == d
  | c :: cs, .leaf (.punct d joint) _ :: rest => c == d && joint && spells cs rest
  | _, _ => false

/-- Whether the next trees are given punctuation. -/
def atPunct (c : Cursor) (text : String) : Bool :=
  spells text.toList c.trees

def atGroup (c : Cursor) (delimiter : Delimiter) : Bool :=
  match c.trees with
  | .group d _ _ _ :: _ => d = delimiter
  | _ => false

/-- The cursor behind the next tree; it stays where it is at the end. -/
def second (c : Cursor) : Cursor :=
  match c.trees with
  | [] => c
  | t :: rest => c.behind rest t.width

/-- Whether a literal comes next. The words `true` and `false` are literals, and so is a number
behind a minus sign. -/
def atLiteral (c : Cursor) : Bool :=
  match c.trees with
  | .leaf (.literal _) _ :: _ => true
  | .leaf (.ident text) _ :: _ => text == "true" || text == "false"
  | .leaf (.punct '-' _) _ :: .leaf (.literal text) _ :: _ => Literal.isNumber text
  | _ => false

/-! ## Reading leaves -/

/-- Reads an identifier; any word will do. The result holds its index as well. -/
def ident (c : Cursor) : Except SyntaxError ((String × Nat) × c.Shorter) :=
  match h : c.trees with
  | .leaf (.ident text) _ :: rest =>
    .ok ((text, c.index), ⟨c.behind rest 1, size_behind_lt h 1⟩)
  | _ => .error (c.expected .identifier)

/-- Reads a given identifier. -/
def word (c : Cursor) (text : String) : Except SyntaxError (Unit × c.Shorter) :=
  match c.atWord text, c.ident with
  | true, .ok (_, d) => .ok ((), d)
  | _, _ => .error (c.expected (.keyword text))

/-- Reads one punctuation character; the result is its index. -/
def punct (c : Cursor) (char : Char) : Except SyntaxError (Nat × c.Shorter) :=
  match h : c.trees with
  | .leaf (.punct d _) _ :: rest =>
    if d = char then .ok (c.index, ⟨c.behind rest 1, size_behind_lt h 1⟩)
    else .error (c.fail (.missing char.toString))
  | _ => .error (c.fail (.missing char.toString))

/-- Reads a punctuation character if it comes next. -/
def punct? (c : Cursor) (char : Char) : Option (Nat × c.Shorter) :=
  (c.punct char).toOption

/-- Reads two punctuation characters that belong together, if they come next. -/
def pair? (c : Cursor) (first second : Char) : Option (Nat × c.Shorter) :=
  if c.atPunct (String.ofList [first, second]) then do
    let (_, ⟨d, hd⟩) ← c.punct? first
    let (index, ⟨e, he⟩) ← d.punct? second
    some (index, ⟨e, Nat.lt_trans he hd⟩)
  else none

/-- A literal, and the text it has as the value of an option. -/
structure LiteralToken where
  text : String
  index : Nat
  /-- The text a character or string literal stands for. -/
  value : Option String
deriving Repr

def literal (c : Cursor) : Except SyntaxError (LiteralToken × c.Shorter) :=
  match h : c.trees with
  | .leaf (.literal text) _ :: rest =>
    .ok (⟨text, c.index, Literal.value? text⟩, ⟨c.behind rest 1, size_behind_lt h 1⟩)
  | .leaf (.ident text) _ :: rest =>
    if text == "true" || text == "false" then
      .ok (⟨text, c.index, none⟩, ⟨c.behind rest 1, size_behind_lt h 1⟩)
    else .error (c.expected .literal)
  | .leaf (.punct '-' _) p :: .leaf (.literal text) q :: rest =>
    if Literal.isNumber text then
      .ok (⟨"- " ++ text, c.index, none⟩,
        ⟨c.behind rest 2, by
          have : c.trees = .leaf (.punct '-' _) p :: (.leaf (.literal text) q :: rest) := h
          simp only [size, behind, this, TokenTree.sizes, TokenTree.size]
          omega⟩)
    else .error (c.expected .literal)
  | _ => .error (c.expected .literal)

/-! ## Reading groups -/

/-- Reads a group as a whole; the result is its index and its body as text. -/
def opaqueGroup (c : Cursor) (delimiter : Delimiter) (what : Expectation) :
    Except SyntaxError ((Nat × String) × c.Shorter) :=
  match h : c.trees with
  | .group d _ _ body :: rest =>
    if d = delimiter then
      .ok ((c.index, TokenTree.print body), ⟨c.behind rest 1, size_behind_lt h 1⟩)
    else .error (c.expected what)
  | _ => .error (c.expected what)

def arguments (c : Cursor) : Except SyntaxError (Snippet × c.Shorter) := do
  let ((index, text), d) ← c.opaqueGroup .bracket .squareBrackets
  .ok (⟨text, .none, .single index⟩, d)

end Cursor

end GrammarCompiler
