import GrammarCompiler.Text.Quoted.Table

/-!
# Quoted text

A text in double quotes, with everything escaped that could not be read back or not be seen:
the quote and the backslash, controls, and characters without a shape of their own. Generated
code and messages share these rules but for the NUL character: in code a digit may follow it,
and then `\0` would be read as the start of a longer number.
-/

namespace GrammarCompiler.Text

/-- Whether a character is written by its number inside quotes. -/
def isShapeless (c : Char) : Bool :=
  if c.toNat < 0x80 then c.toNat < 0x20 || c.toNat == 0x7f else shapelessRanges.covers c

/-- A character's number between braces, in lower-case hexadecimal without leading zeros. -/
def numericEscape (c : Char) : String :=
  "\\u\x7b" ++ String.ofList (Nat.toDigits 16 c.toNat) ++ "\x7d"

def quotedChar (c : Char) : String :=
  match c with
  | '\x00' => "\\0"
  | '\t' => "\\t"
  | '\n' => "\\n"
  | '\r' => "\\r"
  | '\\' => "\\\\"
  | '"' => "\\\""
  | c => if isShapeless c then numericEscape c else c.toString

/-- The text between the quotes of a literal in generated code. -/
def literalBody : List Char → String
  | [] => ""
  | '\x00' :: c :: cs =>
    (if '0' ≤ c && c ≤ '7' then "\\x00" else "\\0") ++ literalBody (c :: cs)
  | c :: cs => quotedChar c ++ literalBody cs

def literalText (s : String) : String :=
  "\"" ++ literalBody s.toList ++ "\""

/-- A text as messages quote it. -/
def shownText (s : String) : String :=
  "\"" ++ String.join (s.toList.map quotedChar) ++ "\""

end GrammarCompiler.Text
