import GrammarCompiler.Token.Basic

/-!
# Replaying tokens

Tokens are written out with one space between them, but joint punctuation stays together with
the punctuation behind it, so that `+=` and `->` are read back as what they were.
-/

namespace GrammarCompiler

/-- Text under construction. `glue` is set behind joint punctuation. -/
structure Replay where
  text : String := ""
  glue : Bool := false
deriving Repr, DecidableEq

namespace Replay

def empty : Replay := {}

def token (out : Replay) (t : Token) : Replay :=
  let gap := if out.text.isEmpty || (out.glue && t.kind = .punct) then "" else " "
  { text := out.text ++ gap ++ t.text, glue := t.kind = .punct && t.joint }

/-- Writes a text right behind the token before it. -/
def raw (out : Replay) (text : String) : Replay :=
  { text := out.text ++ text, glue := false }

def tokens (out : Replay) (ts : List Token) : Replay :=
  ts.foldl token out

end Replay

end GrammarCompiler
