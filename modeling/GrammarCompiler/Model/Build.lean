import GrammarCompiler.Model.Basic
import GrammarCompiler.Network.Build

/-!
# Models of grammars

The model follows the definitions of the rules. Where they leave a choice, the decision of the
network for the same construct is looked up, and with it what one token of lookahead tells.

A decision that prefers to read little has its way out as the first alternative, so the
alternatives of the block are numbered from 2. The decision of a loop is between another round
and the end; a loop over several alternatives has a second choice inside.
-/

namespace GrammarCompiler

/-- What the author of a grammar can ask for. -/
structure CompileOptions where
  /-- Leave all choices to prediction. -/
  forcePrediction : Bool := false
  listener : Bool := false
  visitor : Bool := false
  package : Option String := none
deriving Repr, DecidableEq

namespace ParserModel

/-- What a model is made from. -/
structure Source where
  grammar : Grammar
  network : Network
  vocabulary : Vocabulary
  /-- The lookahead of each decision. -/
  look : List IntervalSet.Look
  options : CompileOptions

namespace Source

def lookOf (source : Source) (decision : Nat) : IntervalSet.Look :=
  (source.look[decision]?).getD []

def choice (source : Source) (suffix : Option Suffix) (decision : Nat) (alts : List AltCode) :
    Choice :=
  let look := source.lookOf decision
  let settled := disjoint look && !source.options.forcePrediction
  let kind := ChoiceKind.choose settled suffix alts.length
  { kind, decision, alts
    look :=
      if kind.isLL1 then
        look.map fun set => TestSet.ofSet (set.getD .empty) TestSet.machineWord
      else [] }

/-- The choice about a construct; nothing if the network has no decision about it. -/
def choiceAt (source : Source) (token : Nat) (site : DecisionSite) (suffix : Option Suffix)
    (alts : List AltCode) : List Operation :=
  match source.network.decisionAt? token site with
  | some decision => [.choice (source.choice suffix decision alts)]
  | none => []

def block (source : Source) (token : Nat) (site : DecisionSite) : List AltCode → List Operation
  | [alt] => alt.ops
  | alts => source.choiceAt token site none alts

/-- The body of a loop as its only alternative. -/
def loopBody (source : Source) (token : Nat) (site : DecisionSite) (num : Nat)
    (alts : List AltCode) : List AltCode :=
  [⟨num, source.block token site alts⟩]

/-- The steps of a block under a suffix. `token` is the first token of the block and `first`
that of the whole construct. -/
def suffixed (source : Source) (suffix : Suffix) (greedy : Bool) (token first : Nat)
    (alts : List AltCode) : List Operation :=
  let shift := if greedy then 0 else 1
  match suffix with
  | .optional =>
    source.choiceAt token .optional (some suffix)
      (alts.map fun alt => { alt with num := alt.num + shift })
  | .closure =>
    source.choiceAt first .starLoopEntry (some suffix)
      (source.loopBody token .starBlock (1 + shift) alts)
  | .positiveClosure =>
    source.choiceAt first .plusLoopBack (some suffix)
      (source.loopBody token .plusBlock (1 + shift) alts)

/-- The type of the token that an element of a set stands for. -/
def tokenType? (source : Source) : Element → Option Int
  | .tokenRef name _ _ => source.vocabulary.type? name
  | .quotation literal => source.vocabulary.literalType? literal.value
  | _ => none

def testSet (source : Source) (elements : List Element) : TestSet :=
  TestSet.ofSet (.ofList (elements.filterMap source.tokenType?)) TestSet.machineWord

def operandSet (source : Source) : Element → TestSet
  | .set elements _ => source.testSet elements
  | element => source.testSet [element]

mutual
/-- The steps of an element with a label. Labels on blocks and repeated elements are not kept. -/
def element (source : Source) (label : Option String) : Element → List Operation
  | .labeled _ name _ inner _ => source.element (some name) inner
  | .ruleRef r => [.invoke r.name (Network.precedenceIn? r.options) label]
  | .tokenRef name _ _ =>
    [.matchToken ((source.vocabulary.type? name).getD Symbol.invalid) label]
  | .quotation literal =>
    [.matchToken ((source.vocabulary.literalType? literal.value).getD Symbol.invalid) label]
  | .wildcard _ _ => [.wildcard label]
  | .set elements _ => [.matchSet (source.testSet elements) false]
  | .not operand _ => [.matchSet (source.operandSet operand) true]
  | .action code => [.action code.text]
  | .predicate code =>
    match Network.precedenceIn? code.options with
    | some precedence => [.precedence precedence]
    | none => [.predicate code.text]
  | .block alts _ extent => source.block extent.start .block (source.alts 1 alts)
  | .suffixed suffix greedy (.block alts _ inner) extent =>
    source.suffixed suffix greedy inner.start extent.start (source.alts 1 alts)
  | .suffixed suffix greedy inner extent =>
    source.suffixed suffix greedy inner.extent.start extent.start
      [⟨1, source.element none inner⟩]
  | .range .. => []
  | .command .. => []
  | .epsilon _ => []

def elements (source : Source) : List Element → List Operation
  | [] => []
  | e :: es => source.element none e ++ source.elements es

def alt (source : Source) (num : Nat) : Alt → AltCode
  | ⟨elements, _, _, _, _⟩ => ⟨num, source.elements elements⟩

/-- The steps of alternatives, numbered from `num` on. -/
def alts (source : Source) (num : Nat) : List Alt → List AltCode
  | [] => []
  | a :: as => source.alt num a :: source.alts (num + 1) as
end

def rule (source : Source) (rule : Rule) (definition : RuleDef) : RuleFunction where
  name := rule.name
  index := rule.index
  isLeftRecursive := rule.leftRecursion.isSome
  altLabels := rule.altLabels
  body := source.block definition.block.extent.start .ruleBlock (source.alts 1 definition.alts)

def namedTokens (source : Source) : List (String × Int) :=
  (List.range source.vocabulary.displays.size).filterMap fun (type : Nat) =>
    (source.vocabulary.symbolicName? type).map (·, (type : Int))

def model (source : Source) : ParserModel where
  name := source.grammar.source.name
  tokens := source.namedTokens
  rules := source.grammar.parserRules.filterMap fun rule =>
    (source.grammar.definition? rule).map (source.rule rule)
  listener := source.options.listener
  visitor := source.options.visitor
  package := source.options.package

end Source

end ParserModel

end GrammarCompiler
