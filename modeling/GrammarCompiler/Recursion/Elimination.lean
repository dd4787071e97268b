import GrammarCompiler.Ast.Read
import GrammarCompiler.Grammar.Check
import GrammarCompiler.Recursion.Analysis

/-!
# Eliminating left recursion

`Grammar.eliminate` puts a new rule in the place of every parser rule that is left-recursive.
A rule that does not conform is reported and stays as it is.

Afterwards every other reference to a replaced rule is given the precedence 0, so that it
accepts any operator.
-/

namespace GrammarCompiler

namespace LeftRecursion

/-- Lets the alternatives of a block point at the infos `infos`, one after another. -/
def pointAlts (infos : List Nat) (alts : List Alt) : List Alt :=
  alts.mapIdx fun i alt =>
    match infos[i]? with
    | some info => { alt with info := some info }
    | none => alt

/-- Tells the infos `infos` their places in a block of `count` alternatives. -/
def placeInfos (places : List Nat) (count : Nat) (infos : List AltInfo) : List AltInfo :=
  (places.take count).zipIdx.foldl
    (fun infos (info, i) => infos.modify info ({ · with place := some i })) infos

/-- Lets the alternatives as written point at their infos. -/
def pointWritten (infos : List AltInfo) (written : List Alt) : List Alt :=
  infos.zipIdx.foldl
    (fun alts (info, i) => alts.modify info.index fun alt => { alt with info := some i }) written

/-- Connects a block in the new rule with the infos of its alternatives. -/
def linkPrimary (lr : LeftRecursion) : Element → LeftRecursion × Element
  | .block alts options extent =>
    ({ lr with infos := placeInfos lr.primary alts.length lr.infos },
      .block (pointAlts lr.primary alts) options extent)
  | other => (lr, other)

/-- Connects the operator loop in the new rule with the infos of its alternatives. -/
def linkOperators (lr : LeftRecursion) : Element → LeftRecursion × Element
  | .suffixed .closure greedy (.block alts options inner) extent =>
    let infos := lr.operators.map (·.2)
    ({ lr with infos := placeInfos infos alts.length lr.infos },
      .suffixed .closure greedy (.block (pointAlts infos alts) options inner) extent)
  | other => (lr, other)

/-- Connects the elements of the one alternative of the new rule: the primary block comes first
and the operator loop second. -/
def linkElements (lr : LeftRecursion) : List Element → LeftRecursion × List Element
  | [] => (lr, [])
  | [primary] =>
    let (lr, primary) := lr.linkPrimary primary
    (lr, [primary])
  | primary :: operators :: rest =>
    let (lr, primary) := lr.linkPrimary primary
    let (lr, operators) := lr.linkOperators operators
    (lr, primary :: operators :: rest)

/-- Connects the infos with the alternatives of the new rule and with those as written. -/
def link (lr : LeftRecursion) (rule : RuleDef) : LeftRecursion × RuleDef :=
  match rule.alts with
  | [] => (lr, rule)
  | main :: others =>
    let (lr, elements) := lr.linkElements main.elements
    ({ lr with written := pointWritten lr.infos lr.written },
      rule.withAlts ({ main with elements } :: others))

end LeftRecursion

/-- The label of a reference that was taken away, as a label of the new rule. -/
def RefLabel.labelDef (label : RefLabel) : LabelDef :=
  ⟨label.label, label.labelToken, if label.isList then .ruleList else .rule⟩

/-- A rule whose first alternative has more labels. -/
def Rule.addLabels (rule : Rule) (labels : List LabelDef) : Rule :=
  { rule with alts := rule.alts.modify 0 fun alt => labels.foldl Alternative.addLabel alt }

namespace Grammar

structure Replacement where
  grammar : Grammar
  issues : List Issue
  /-- Whether there is a new rule. -/
  done : Bool
deriving Repr

def setDefinition (grammar : Grammar) (place : Nat) (definition : RuleDef) : Grammar :=
  { grammar with
    source := { grammar.source with rules := grammar.source.rules.set place definition } }

/-- Puts a rule in the place of the first one of a name. -/
def setRule (grammar : Grammar) (name : String) (rule : Rule) : Grammar :=
  let place := grammar.rules.findIdx (·.name == name)
  { grammar with rules := grammar.rules.set place rule }

/-- Replaces a rule by one whose definition has been read from its text. -/
def replaceBy (grammar : Grammar) (rule : Rule) (lr : LeftRecursion) (definition : RuleDef) :
    Grammar × List Issue :=
  let (lr, definition) := lr.link { definition with nameToken := rule.nameToken }
  let grammar := grammar.setDefinition rule.defIndex definition
  let next := Rule.ofDef definition rule.defIndex rule.index
  let issues := grammar.checkRule false next ++
    if lr.primary.isEmpty then [grammar.issueAt .noNonLrAlts rule.nameToken [rule.name]] else []
  let next := next.addLabels (lr.refLabels.map RefLabel.labelDef)
  (grammar.setRule rule.name { next with leftRecursion := some lr }, issues)

def replaceAnalyzed (grammar : Grammar) (layout : Layout) (rule : Rule) (written : RuleDef)
    (analysis : RuleAnalysis) : Replacement :=
  let text := layout.rule (analysis.operatorRule written)
  let lr := LeftRecursion.ofInfos analysis.primary analysis.operators analysis.refLabels
    written.alts
  let (definition, tokens) :=
    RuleDef.parse s!"<{rule.name} precedence rule>" text grammar.tokens
  let grammar := { grammar with source := { grammar.source with tokens } }
  match definition with
  | .error error =>
    let detail := "rewritten rule does not parse: " ++ error.message
    ⟨grammar, [grammar.issueAt .internalError rule.nameToken [detail, text]], false⟩
  | .ok definition =>
    let (grammar, issues) := grammar.replaceBy rule lr definition
    ⟨grammar, issues, true⟩

/-- Replaces one rule, whether it is left-recursive or not. -/
def replaceRule (grammar : Grammar) (layout : Layout) (name : String) : Replacement :=
  match grammar.rule? name with
  | none => ⟨grammar, [], false⟩
  | some rule =>
    match grammar.definition? rule with
    | none => ⟨grammar, [], false⟩
    | some written =>
      match grammar.analyze written with
      | (issues, .error reason) =>
        let issue :=
          grammar.issueAt .nonconformingLrRule rule.nameToken [name, reason.message]
        ⟨grammar, issues ++ [issue], false⟩
      | (issues, .ok analysis) =>
        let result := grammar.replaceAnalyzed layout rule written analysis
        { result with issues := issues ++ result.issues }

/-- Replaces rules one after another. The flags tell which of them have been replaced. -/
def replaceRules (grammar : Grammar) (layout : Layout) :
    List String → Grammar × List Issue × List (String × Bool)
  | [] => (grammar, [], [])
  | name :: names =>
    let result := grammar.replaceRule layout name
    let (grammar, issues, done) := result.grammar.replaceRules layout names
    (grammar, result.issues ++ issues, (name, result.done) :: done)

/-- Gives all references to rules of the list that demand no precedence yet the precedence
0. -/
def demandAny (names : List String) (rule : RuleDef) : RuleDef :=
  let change (_ : Unit) (element : Element) : Unit × Options :=
    match element with
    | .ruleRef r =>
      ((), if names.contains r.name && (r.options.get? precedenceOption).isNone then
        r.options.set precedenceOption "0" else r.options)
    | other => ((), other.ownOptions)
  (rule.mapOptions change ()).2

/-- The names of the parser rules that are left-recursive. -/
def leftRecursiveRules (grammar : Grammar) : List String :=
  (grammar.parserRules.filter fun rule =>
    (grammar.definition? rule).any (·.isLeftRecursive)).map (·.name)

/-- Replaces all left-recursive rules. The list names those that have been replaced. -/
def eliminate (grammar : Grammar) (layout : Layout) : Grammar × List Issue × List String :=
  let (grammar, issues, done) := grammar.replaceRules layout grammar.leftRecursiveRules
  let names := (done.filter (·.2)).map (·.1)
  let rules := grammar.source.rules.map (demandAny names)
  ({ grammar with source := { grammar.source with rules } }, issues, names)

end Grammar

end GrammarCompiler
