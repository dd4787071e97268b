import GrammarCompiler.Text.Width.Table

/-!
# Display width

How many cells of a terminal a character takes. Controls take none, marks none, wide
characters two, and one abbreviation takes three. A tab reaches to the next tab stop, so its
width depends on its column.
-/

namespace GrammarCompiler.Text

/-- The Khmer sign BEYYAL, "and so on", which is drawn as three signs. -/
def beyyal : Char := '\u17d8'

/-- Cells of one character that is not a tab. -/
def charWidth (c : Char) : Nat :=
  if c.toNat < 0x7f then
    if c.toNat < 0x20 then 0 else 1
  else if c.toNat < 0xa0 then 0
  else if zeroWidthRanges.covers c then 0
  else if doubleWidthRanges.covers c then 2
  else if c = beyyal then 3
  else 1

/-- Tab stops stand at every fourth column. -/
def tabWidth : Nat := 4

def widthAt (column : Nat) (c : Char) : Nat :=
  if c = '\t' then tabWidth - column % tabWidth else charWidth c

def lineWidths (column : Nat) : List Char → List (Char × Nat)
  | [] => []
  | c :: cs => (c, widthAt column c) :: lineWidths (column + widthAt column c) cs

end GrammarCompiler.Text
