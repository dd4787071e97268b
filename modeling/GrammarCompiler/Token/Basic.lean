import GrammarCompiler.Text.Position

/-!
# Tokens

A token of a grammar in its flat form. Its index is its place in the token table, and grammar
elements refer to tokens by index. Parentheses are tokens of their own; a group in braces is
one action token and a group in brackets one argument token.
-/

namespace GrammarCompiler

open Text (Position)

inductive TokenKind where
  | ident
  | literal
  | punct
  | openParen
  | closeParen
  | action
  | argAction
deriving Repr, DecidableEq

structure Token where
  index : Nat
  kind : TokenKind
  text : String
  /-- Punctuation with more punctuation right behind it. -/
  joint : Bool
  /-- Number of the source that the token is shown in. -/
  source : Nat
  position : Position
deriving Repr, DecidableEq

def Token.isPunct (token : Token) (c : Char) : Bool :=
  token.kind = .punct && token.text == c.toString

end GrammarCompiler
