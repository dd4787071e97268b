import GrammarCompiler.Grammar.Basic

/-!
# Checks on rules

What can be said about rules without looking at what they match: references must name rules,
options must be known, and labels of alternatives must be complete and belong to one rule.
-/

namespace GrammarCompiler

/-- The options that elements may have. -/
def elementOptions : List String :=
  [assocOption, tokenIndexOption, precedenceOption, "fail"]

/-- The options that alternatives may have. -/
def altOptions : List String :=
  [assocOption]

inductive OptionFault where
  | unknown (key : String)
  /-- An associativity on an element and not on an alternative. -/
  | misplacedAssoc
deriving Repr, DecidableEq

namespace Grammar

/-! ## References -/

/-- The issue with a reference in a rule. Inside token rules, token names are references to
other token rules. -/
def refIssue? (grammar : Grammar) (inLexerRule : Bool) (element : Element) : Option Issue :=
  let undefined (name : String) (extent : Extent) : Option Issue :=
    if (grammar.rule? name).isNone then
      some (grammar.issueAt .undefinedRuleRef extent.start [name])
    else none
  match element with
  | .ruleRef r => undefined r.name r.extent
  | .tokenRef name _ extent => if inLexerRule then undefined name extent else none
  | _ => none

/-! ## Options -/

def altFaults (options : Options) : List OptionFault :=
  options.entries.filterMap fun (key, _) =>
    if altOptions.contains key then none else some (.unknown key)

def elementFaults (options : Options) : List OptionFault :=
  options.entries.filterMap fun (key, _) =>
    if key == assocOption then some .misplacedAssoc
    else if elementOptions.contains key then none
    else some (.unknown key)

/-- What is wrong with the options that an element brings along: those of its alternatives for
a block, none for a predicate, its own otherwise. -/
def optionFaults : Element → List (Options × OptionFault)
  | .block alts _ _ => alts.flatMap fun a => (altFaults a.options).map (a.options, ·)
  | .predicate _ => []
  | element =>
    match element.options? with
    | some options => (elementFaults options).map (options, ·)
    | none => []

def optionIssue? (grammar : Grammar) (checkAssoc : Bool) (rule : Rule) (options : Options) :
    OptionFault → Option Issue :=
  let place := (options.extent.map (·.start)).getD rule.nameToken
  fun
  | .unknown key => some (grammar.issueAt .illegalOption place [key])
  | .misplacedAssoc =>
    if checkAssoc then some (grammar.issueAt .unrecognizedAssocOption place [rule.name])
    else none

/-! ## Rules -/

def checkRule (grammar : Grammar) (checkAssoc : Bool) (rule : Rule) : List Issue :=
  match grammar.definition? rule with
  | none => []
  | some definition =>
    let faults := definition.alts.flatMap fun alt =>
      (altFaults alt.options).map (alt.options, ·) ++ alt.nodes.flatMap optionFaults
    definition.nodes.filterMap (grammar.refIssue? rule.isLexerRule) ++
    faults.filterMap fun (options, fault) =>
      grammar.optionIssue? checkAssoc rule options fault

/-! ## Labels -/

/-- The alternatives of a rule as its author wrote them. -/
def writtenAlts (grammar : Grammar) (rule : Rule) : List Alt :=
  match rule.leftRecursion with
  | some lr => lr.written
  | none => ((grammar.definition? rule).map (·.alts)).getD []

/-- Checks the labels of one rule, given the rules that own the labels so far. -/
def labelIssues (grammar : Grammar) (rule : Rule) :
    List (String × String) → List AltLabel → List (String × String) × List Issue
  | owners, [] => (owners, [])
  | owners, label :: labels =>
    match owners.lookup label.name with
    | none => grammar.labelIssues rule ((label.name, rule.name) :: owners) labels
    | some owner =>
      let (owners, issues) := grammar.labelIssues rule owners labels
      if owner == rule.name then (owners, issues)
      else
        (owners, grammar.issueAt .altLabelRedef label.poundToken
          [label.name, rule.name, owner] :: issues)

/-- Checks that either all alternatives of a rule are labeled or none is, and that no label is
used in two rules. -/
def checkLabels (grammar : Grammar) (owners : List (String × String)) : List Rule → List Issue
  | [] => []
  | rule :: rules =>
    let alts := grammar.writtenAlts rule
    let labels := alts.filterMap (·.label)
    let few :=
      if 0 < labels.length && labels.length < alts.length then
        [grammar.issueAt .ruleWithTooFewAltLabels rule.nameToken [rule.name]]
      else []
    let (owners, issues) := grammar.labelIssues rule owners labels
    few ++ issues ++ grammar.checkLabels owners rules

/-- Checks all rules. `checkAssoc` asks for warnings about misplaced associativities. -/
def check (grammar : Grammar) (checkAssoc : Bool) : List Issue :=
  grammar.rules.flatMap (grammar.checkRule checkAssoc) ++
  grammar.checkLabels [] grammar.parserRules

end Grammar

end GrammarCompiler
