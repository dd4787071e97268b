/-!
# Positions in a source text

Lines are counted from 1 and columns, in characters, from 0. Only a line feed ends a line.
-/

namespace GrammarCompiler.Text

/-- A place in a source text. -/
structure Position where
  line : Nat
  column : Nat
deriving Repr, DecidableEq, Inhabited

namespace Position

def start : Position := ⟨1, 0⟩

/-- The place behind a character. -/
def step (p : Position) (c : Char) : Position :=
  if c = '\n' then ⟨p.line + 1, 0⟩ else ⟨p.line, p.column + 1⟩

/-- The place behind a text that begins at `p`. -/
def after (p : Position) (cs : List Char) : Position :=
  cs.foldl step p

end Position

end GrammarCompiler.Text
