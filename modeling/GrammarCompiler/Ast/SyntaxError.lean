import GrammarCompiler.Text.Position

/-!
# Syntax errors

Why a text is not a grammar, and where. `SyntaxError.message` holds the wording of every
cause.
-/

namespace GrammarCompiler

open Text (Position)

/-- What the reader needed to see next. -/
inductive Expectation where
  | identifier
  | literal
  | keyword (word : String)
  | curlyBraces
  | squareBrackets
  /-- The end of a block in parentheses. -/
  | blockEnd
  /-- The end of a set in parentheses. -/
  | setEnd
  /-- Anything but an argument list, which only follows a rule reference. -/
  | noArguments
deriving Repr, DecidableEq

inductive SyntaxCause where
  /-- The text cannot be cut into token trees. -/
  | unreadable
  /-- Something else stands here, or nothing when `atEnd` is set. -/
  | expected (what : Expectation) (atEnd : Bool)
  /-- Punctuation is missing. -/
  | missing (punctuation : String)
  /-- A literal is neither a character nor a string. -/
  | notQuotation
  /-- A literal stands for no character at all. -/
  | emptyQuotation
  /-- The operand of a negation is not a set of symbols. -/
  | notNegatable
  /-- Something is left behind the end. -/
  | leftOver (inParentheses : Bool)
deriving Repr, DecidableEq

structure SyntaxError where
  cause : SyntaxCause
  position : Position
deriving Repr, DecidableEq

def Expectation.message : Expectation → String
  | identifier => "expected ident"
  | literal => "expected literal"
  | keyword word => "expected `" ++ word ++ "`"
  | curlyBraces => "expected curly braces"
  | squareBrackets => "expected square brackets"
  | blockEnd => "expected `|` or `)`"
  | setEnd => "expected `|` or `)` in set"
  | noArguments => "argument action must follow a rule reference"

def SyntaxError.message (error : SyntaxError) : String :=
  match error.cause with
  | .unreadable => "cannot parse string into token stream"
  | .expected what false => what.message
  | .expected what true => "unexpected end of input, " ++ what.message
  | .missing punctuation => "expected `" ++ punctuation ++ "`"
  | .notQuotation => "expected a character or string literal"
  | .emptyQuotation => "empty string literal"
  | .notNegatable => "only tokens, literals and ranges can be negated"
  | .leftOver true => "unexpected token, expected `)`"
  | .leftOver false => "unexpected token"

end GrammarCompiler
