import GrammarCompiler.Text.Ranges

/-!
# Blank characters

`isBlank` is the White_Space property of characters. Between tokens the two marks of
writing direction count as blank as well (`isGap`), although they take no room.
-/

namespace GrammarCompiler.Text

/-- The characters with the White_Space property. -/
def blankRanges : Ranges :=
  [(0x09, 0x0d), (0x20, 0x20), (0x85, 0x85), (0xa0, 0xa0), (0x1680, 0x1680),
   (0x2000, 0x200a), (0x2028, 0x2029), (0x202f, 0x202f), (0x205f, 0x205f),
   (0x3000, 0x3000)]

def isBlank (c : Char) : Bool :=
  blankRanges.covers c

/-- What may stand between two tokens: white space and the marks of writing direction. -/
def isGap (c : Char) : Bool :=
  isBlank c || c == '\u200e' || c == '\u200f'

def trimEnd (s : String) : String :=
  String.ofList (s.toList.reverse.dropWhile isBlank).reverse

def trim (s : String) : String :=
  trimEnd (String.ofList (s.toList.dropWhile isBlank))

end GrammarCompiler.Text
