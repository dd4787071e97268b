import GrammarCompiler.TokenTree.Lexeme
import GrammarCompiler.Text.Quoted

/-!
# From lexemes to token trees

Delimiters are matched with a stack of the groups that are still open. A documentation comment
becomes the attribute that it abbreviates, `#[doc = "…"]`, with all its tokens at the place of
the comment. Reading fails at a closing delimiter that closes nothing or the wrong group, at a
place where no lexeme begins, and at the innermost group that is never closed, whichever comes
first.
-/

namespace GrammarCompiler.TokenTree

open Text (Position)

/-- A group that is still open, and the trees before it in reverse order. -/
structure Frame where
  delimiter : Delimiter
  opened : Position
  before : List TokenTree
deriving Repr

/-- The tokens that a documentation comment at `p` stands for. -/
def ofDoc (inner : Bool) (text : String) (p : Position) : List TokenTree :=
  let body := [leaf (.ident "doc") p, leaf (.punct '=' false) p,
    leaf (.literal (Text.literalText text)) p]
  let mark := leaf (.punct '#' false) p
  let content := group .bracket p p body
  if inner then [mark, leaf (.punct '!' false) p, content] else [mark, content]

/-- Gathers lexemes into trees: `frames` are the groups still open, innermost first, and `done`
the trees read since the last of them was opened, in reverse order. -/
def assemble (stuck : Option Position) :
    List Frame → List TokenTree → List (Lexeme × Position) → Except Position (List TokenTree)
  | frames, done, [] =>
    match stuck, frames with
    | some p, _ => .error p
    | none, frame :: _ => .error frame.opened
    | none, [] => .ok done.reverse
  | frames, done, (.leaf token, p) :: rest => assemble stuck frames (leaf token p :: done) rest
  | frames, done, (.doc inner text, p) :: rest =>
    assemble stuck frames ((ofDoc inner text p).reverse ++ done) rest
  | frames, done, (.opening delimiter, p) :: rest =>
    assemble stuck (⟨delimiter, p, done⟩ :: frames) [] rest
  | [], _, (.closing _, p) :: _ => .error p
  | frame :: frames, done, (.closing delimiter, p) :: rest =>
    if frame.delimiter = delimiter then
      assemble stuck frames (group delimiter frame.opened p done.reverse :: frame.before) rest
    else .error p

def parse (source : String) : Except Position (List TokenTree) :=
  let scan := Scan.scan source
  assemble scan.stuck [] [] scan.lexemes

end GrammarCompiler.TokenTree
