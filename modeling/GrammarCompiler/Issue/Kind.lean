/-!
# Kinds of issues

Everything the compiler may find wrong with a grammar, with the number, the name, the severity
and the wording of each kind. In a wording, `<arg>`, `<arg2>` and `<arg3>` stand for what the
issue is about.
-/

namespace GrammarCompiler

/-- How bad an issue is. A fatal one is a mistake of the compiler and not of the grammar. -/
inductive Severity where
  | warning
  | error
  | fatal
deriving Repr, DecidableEq

def Severity.name : Severity → String
  | warning => "warning"
  | error => "error"
  | fatal => "fatal"

/-- The name of a severity above an excerpt. -/
def Severity.headline : Severity → String
  | warning => "warning"
  | error => "error"
  | fatal => "bug"

inductive IssueKind where
  | internalError
  | syntaxError
  | ruleRedefinition
  | parserRulesNotAllowed
  | lexerRulesNotAllowed
  | undefinedRuleRef
  | illegalOption
  | illegalOptionValue
  | unknownImportedGrammar
  | leftRecursionCycles
  | altLabelRedef
  | ruleWithTooFewAltLabels
  | implicitTokenDefinition
  | epsilonToken
  | noNonLrAlts
  | unrecognizedAssocOption
  | nonconformingLrRule
deriving Repr, DecidableEq

namespace IssueKind

def all : List IssueKind :=
  [internalError, syntaxError, ruleRedefinition, parserRulesNotAllowed, lexerRulesNotAllowed,
   undefinedRuleRef, illegalOption, illegalOptionValue, unknownImportedGrammar,
   leftRecursionCycles, altLabelRedef, ruleWithTooFewAltLabels, implicitTokenDefinition,
   epsilonToken, noNonLrAlts, unrecognizedAssocOption, nonconformingLrRule]

/-- No kind is missing from the list. -/
theorem mem_all (kind : IssueKind) : kind ∈ all := by
  cases kind <;> decide

/-- The number of a kind. -/
def code : IssueKind → Nat
  | internalError => 20
  | syntaxError => 50
  | ruleRedefinition => 51
  | parserRulesNotAllowed => 53
  | lexerRulesNotAllowed => 54
  | undefinedRuleRef => 56
  | illegalOption => 83
  | illegalOptionValue => 84
  | unknownImportedGrammar => 110
  | leftRecursionCycles => 119
  | altLabelRedef => 123
  | ruleWithTooFewAltLabels => 124
  | implicitTokenDefinition => 125
  | epsilonToken => 146
  | noNonLrAlts => 147
  | unrecognizedAssocOption => 157
  | nonconformingLrRule => 169

def name : IssueKind → String
  | internalError => "INTERNAL_ERROR"
  | syntaxError => "SYNTAX_ERROR"
  | ruleRedefinition => "RULE_REDEFINITION"
  | parserRulesNotAllowed => "PARSER_RULES_NOT_ALLOWED"
  | lexerRulesNotAllowed => "LEXER_RULES_NOT_ALLOWED"
  | undefinedRuleRef => "UNDEFINED_RULE_REF"
  | illegalOption => "ILLEGAL_OPTION"
  | illegalOptionValue => "ILLEGAL_OPTION_VALUE"
  | unknownImportedGrammar => "UNKNOWN_IMPORTED_GRAMMAR"
  | leftRecursionCycles => "LEFT_RECURSION_CYCLES"
  | altLabelRedef => "ALT_LABEL_REDEF"
  | ruleWithTooFewAltLabels => "RULE_WITH_TOO_FEW_ALT_LABELS"
  | implicitTokenDefinition => "IMPLICIT_TOKEN_DEFINITION"
  | epsilonToken => "EPSILON_TOKEN"
  | noNonLrAlts => "NO_NON_LR_ALTS"
  | unrecognizedAssocOption => "UNRECOGNIZED_ASSOC_OPTION"
  | nonconformingLrRule => "NONCONFORMING_LR_RULE"

def ofName? (name : String) : Option IssueKind :=
  all.find? (·.name == name)

def severity : IssueKind → Severity
  | internalError => .fatal
  | illegalOption | implicitTokenDefinition | unrecognizedAssocOption => .warning
  | _ => .error

/-- The wording of a kind. -/
def template : IssueKind → String
  | internalError => "internal error: <arg> <arg2>"
  | syntaxError => "syntax error: <arg>"
  | ruleRedefinition => "rule <arg> redefinition; previous at line <arg2>"
  | parserRulesNotAllowed => "parser rule <arg> not allowed in lexer"
  | lexerRulesNotAllowed => "lexer rule <arg> not allowed in parser"
  | undefinedRuleRef => "reference to undefined rule: <arg>"
  | illegalOption => "unsupported option <arg>"
  | illegalOptionValue => "unsupported option value <arg>=<arg2>"
  | unknownImportedGrammar => "can't find imported grammar <arg>"
  | leftRecursionCycles => "The following sets of rules are mutually left-recursive <arg>"
  | altLabelRedef => "rule alt label <arg> redefined in rule <arg2>, originally in rule <arg3>"
  | ruleWithTooFewAltLabels => "rule <arg>: must label all alternatives or none"
  | implicitTokenDefinition => "implicit definition of token <arg> in parser"
  | epsilonToken => "non-fragment lexer rule <arg> can match the empty string"
  | noNonLrAlts =>
    "left recursive rule <arg> must contain an alternative which is not left recursive"
  | unrecognizedAssocOption =>
    "rule <arg> contains an assoc element option in an unrecognized location"
  | nonconformingLrRule =>
    "rule <arg> is left recursive but doesn't conform to a pattern gramforge can handle: <arg2>"

end IssueKind

end GrammarCompiler
