import GrammarCompiler.Grammar.Basic
import GrammarCompiler.Symbol

/-!
# Token types

A vocabulary numbers the tokens of a grammar from 1 on: first the names of the tokens section,
then the token rules that are not fragments, then names that only occur in parser rules, and at
last literals. A literal that is all that some token rule matches has the type of that rule.
-/

namespace GrammarCompiler

/-- The tokens of a grammar and their types. -/
structure Vocabulary where
  /-- What tokens are shown as; the index is the type, and 0 is no type. -/
  displays : Array String
  names : List (String × Int)
  /-- The types of literals, by the text they stand for. -/
  literals : List (String × Int)
deriving Repr

namespace Vocabulary

def empty : Vocabulary :=
  ⟨#["<INVALID>"], [], []⟩

/-- The type that the next token will have. -/
def nextType (vocab : Vocabulary) : Int :=
  vocab.displays.size

def maxType (vocab : Vocabulary) : Int :=
  vocab.nextType - 1

def type? (vocab : Vocabulary) (name : String) : Option Int :=
  if name == "EOF" then some Symbol.eof else vocab.names.lookup name

/-- The type of a literal that stands for a text. -/
def literalType? (vocab : Vocabulary) (value : String) : Option Int :=
  vocab.literals.lookup value

/-- What a type is shown as. -/
def display (vocab : Vocabulary) (type : Int) : String :=
  if type = Symbol.eof then "EOF"
  else if type < 0 then toString type
  else (vocab.displays[type.toNat]?).getD (toString type)

/-- The name of a type, if it has one. What is shown with a quote at its front is a literal. -/
def symbolicName? (vocab : Vocabulary) (type : Int) : Option String :=
  if type ≤ 0 then none
  else
    (vocab.displays[type.toNat]?).filter fun display =>
      !display.toList.head?.any fun c => c == '\'' || c == '"'

/-! ## Defining tokens -/

/-- Gives a token name a type, unless it has one. -/
def define (vocab : Vocabulary) (name : String) : Vocabulary :=
  if (vocab.type? name).isSome then vocab
  else
    { vocab with
      displays := vocab.displays.push name
      names := (name, vocab.nextType) :: vocab.names }

/-- Gives a literal a type, unless it has one: that of the token rule `alias?`, or a new one
under which it is shown as it is written. -/
def defineLiteral (vocab : Vocabulary) (literal : Quotation) (alias? : Option String) :
    Vocabulary :=
  if (vocab.literalType? literal.value).isSome then vocab
  else
    match alias?.bind vocab.type? with
    | some type => { vocab with literals := (literal.value, type) :: vocab.literals }
    | none =>
      { vocab with
        displays := vocab.displays.push literal.text
        literals := (literal.value, vocab.nextType) :: vocab.literals }

/-! ## The vocabulary of a grammar -/

/-- Defines the name that an element of a parser rule refers to, with a warning. -/
def noteElement (grammar : Grammar) (state : Vocabulary × List Issue) (element : Element) :
    Vocabulary × List Issue :=
  match element with
  | .tokenRef name _ extent =>
    if (state.1.type? name).isSome then state
    else
      (state.1.define name,
        state.2 ++ [grammar.issueAt .implicitTokenDefinition extent.start [name]])
  | _ => state

/-- The literal that is all that a token rule matches. -/
def onlyLiteral? (grammar : Grammar) (rule : Rule) : Option String := do
  let definition ← grammar.definition? rule
  match definition.alts with
  | [alt] =>
    match alt.elements with
    | [.quotation literal] => some literal.value
    | _ => none
  | _ => none

/-- The first token rule that matches a text and nothing else. -/
def aliasOf? (grammar : Grammar) (value : String) : Option String :=
  (grammar.tokenRules.find? fun rule => onlyLiteral? grammar rule == some value).map (·.name)

def parserElements (grammar : Grammar) : List Element :=
  grammar.parserRules.flatMap fun rule => ((grammar.definition? rule).map (·.nodes)).getD []

/-- The vocabulary of a grammar, with warnings about names that are not defined. -/
def ofGrammar (grammar : Grammar) : Vocabulary × List Issue :=
  let vocab := grammar.source.tokenDefs.foldl define empty
  let vocab := (grammar.tokenRules.map (·.name)).foldl define vocab
  if grammar.kind = .lexer then (vocab, [])
  else
    let elements := parserElements grammar
    let (vocab, issues) := elements.foldl (noteElement grammar) (vocab, [])
    let literals := elements.filterMap fun
      | .quotation literal => some literal
      | _ => none
    (literals.foldl
      (fun vocab literal => vocab.defineLiteral literal (aliasOf? grammar literal.value)) vocab,
      issues)

end Vocabulary

end GrammarCompiler
