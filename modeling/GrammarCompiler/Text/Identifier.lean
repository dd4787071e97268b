import GrammarCompiler.Text.Identifier.Table

/-!
# Identifiers

An identifier begins with a letter (XID_Start) or an underscore and goes on with letters,
digits and marks (XID_Continue). ASCII is decided without the tables, so that closed
examples evaluate quickly.
-/

namespace GrammarCompiler.Text

/-- The characters an identifier may begin with. -/
def isIdentStart (c : Char) : Bool :=
  if c.toNat < 0x80 then c.isAlpha || c == '_' else identStartRanges.covers c

/-- The characters an identifier may go on with: those it may begin with, and digits and marks. -/
def isIdentContinue (c : Char) : Bool :=
  if c.toNat < 0x80 then c.isAlphanum || c == '_'
  else identStartRanges.covers c || identMarkRanges.covers c

theorem isIdentContinue_of_isIdentStart {c : Char} (h : isIdentStart c = true) :
    isIdentContinue c = true := by
  unfold isIdentStart at h
  unfold isIdentContinue
  split at h
  · rcases Bool.or_eq_true _ _ |>.mp h with h | h
    · simp [Char.isAlphanum, *]
    · simp [*]
  · simp [*]

/-- Number of characters of the identifier at the head of a text, if there is one. -/
def identLength : List Char → Option Nat
  | [] => none
  | c :: cs => if isIdentStart c then some ((cs.takeWhile isIdentContinue).length + 1) else none

def isIdent (name : String) : Bool :=
  match name.toList with
  | [] => false
  | c :: cs => isIdentStart c && cs.all isIdentContinue

/-- The words that stay keywords even behind the raw mark `r#`. -/
def neverRaw : List String := ["_", "super", "self", "Self", "crate"]

/-- A name that may stand alone in generated code: an identifier, or one behind `r#`. -/
def isName (name : String) : Bool :=
  match name.toList with
  | 'r' :: '#' :: rest => isIdent (String.ofList rest) && !neverRaw.contains (String.ofList rest)
  | _ => isIdent name

end GrammarCompiler.Text
