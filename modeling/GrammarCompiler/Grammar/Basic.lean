import GrammarCompiler.Grammar.Rule
import GrammarCompiler.Issue.Report

/-!
# Grammars

A grammar as written together with the rules collected from it. Rules are numbered for each
kind on its own, so in a combined grammar parser rules and token rules both begin at 0. A rule
that is defined twice, or that the kind of the grammar does not allow, is reported and left
out.
-/

namespace GrammarCompiler

open Text (Position)

/-- Whether a grammar of a kind may define a rule. -/
def GrammarKind.allows (kind : GrammarKind) (definition : RuleDef) : Bool :=
  match kind with
  | .lexer => definition.isLexerRule
  | .parser => !definition.isLexerRule
  | .combined => true

structure Grammar where
  file : String
  source : GrammarDef
  /-- The rules, in the order of their definitions. -/
  rules : List Rule
  /-- The grammars whose rules were taken in. -/
  imported : List String
deriving Repr

namespace Grammar

/-- A grammar whose rules are not yet collected. -/
def ofDef (file : String) (source : GrammarDef) : Grammar :=
  ⟨file, source, [], []⟩

def kind (grammar : Grammar) : GrammarKind :=
  grammar.source.kind

def tokens (grammar : Grammar) : TokenTable :=
  grammar.source.tokens

def rule? (grammar : Grammar) (name : String) : Option Rule :=
  grammar.rules.find? (·.name == name)

def definition? (grammar : Grammar) (rule : Rule) : Option RuleDef :=
  grammar.source.rules[rule.defIndex]?

def parserRules (grammar : Grammar) : List Rule :=
  grammar.rules.filter (!·.isLexerRule)

def lexerRules (grammar : Grammar) : List Rule :=
  grammar.rules.filter (·.isLexerRule)

/-- The token rules that are no fragments. -/
def tokenRules (grammar : Grammar) : List Rule :=
  grammar.lexerRules.filter (!·.isFragment)

/-! ## Places -/

/-- The file and the place of a token. An index without a token is in the grammar's own file,
at no place. -/
def locate (grammar : Grammar) (token : Nat) : String × Option Position :=
  match grammar.tokens.get? token with
  | some t => (grammar.tokens.sourceName t.source, some t.position)
  | none => (grammar.file, none)

def issueAt (grammar : Grammar) (kind : IssueKind) (token : Nat) (args : List String) : Issue :=
  let (file, location) := grammar.locate token
  ⟨kind, some file, location, args⟩

/-! ## Collecting rules -/

/-- Why a definition does not become a rule behind the rules `before`. -/
def refusal? (grammar : Grammar) (before : List Rule) (definition : RuleDef) : Option Issue :=
  match before.find? (·.name == definition.name) with
  | some previous =>
    let line := ((grammar.locate previous.nameToken).2.map (·.line)).getD 0
    some (grammar.issueAt .ruleRedefinition definition.nameToken
      [definition.name, toString line])
  | none =>
    if grammar.kind.allows definition then none
    else
      let kind : IssueKind :=
        if definition.isLexerRule then .lexerRulesNotAllowed else .parserRulesNotAllowed
      some (grammar.issueAt kind definition.nameToken [definition.name])

/-- The rules of definitions that follow the rules `before`, and what is wrong with the
others. -/
def collectFrom (grammar : Grammar) (before : List Rule) :
    List (RuleDef × Nat) → List Rule × List Issue
  | [] => ([], [])
  | (definition, place) :: rest =>
    match grammar.refusal? before definition with
    | some issue =>
      let (rules, issues) := grammar.collectFrom before rest
      (rules, issue :: issues)
    | none =>
      let index := before.countP (·.isLexerRule == definition.isLexerRule)
      let rule := Rule.ofDef definition place index
      let (rules, issues) := grammar.collectFrom (before ++ [rule]) rest
      (rule :: rules, issues)

def collect (grammar : Grammar) : Grammar × List Issue :=
  let (rules, issues) := grammar.collectFrom [] grammar.source.rules.zipIdx
  ({ grammar with rules }, issues)

end Grammar

end GrammarCompiler
