/-!
# Symbols

Parsers read token types and lexers read code points. Both are numbers and share the special
values below.
-/

namespace GrammarCompiler.Symbol

def eof : Int := -1

/-- The type of no token. In a lookahead set it tells that a predicate has the last word. -/
def invalid : Int := 0

/-- The least token type that a grammar can define. -/
def firstToken : Int := 1

def lastChar : Int := 0x10FFFF

/-- In a lookahead set, the end of the rule where the search began. -/
def ruleEnd : Int := -2

def ofChar (c : Char) : Int := c.toNat

end GrammarCompiler.Symbol
