import GrammarCompiler.Grammar.Basic
import GrammarCompiler.Network.LeftCycle
import GrammarCompiler.Network.Lookahead

/-!
# Analysis of networks

Three things are found out before code is made: whether rules call each other in a cycle
without reading anything, whether a token rule matches nothing at all, and which symbols the
alternatives of the decisions of a parser begin with. Cycles end the analysis.
-/

namespace GrammarCompiler

/-- What is found out about a network. -/
structure Findings where
  /-- Whether there are no cycles of left calls. -/
  completed : Bool
  /-- The lookahead of each decision of a parser. -/
  look : List IntervalSet.Look
  issues : List Issue
deriving Repr, DecidableEq

/-- The issue that there are cycles of left calls. It is placed at the first rule of the first
cycle. -/
def Grammar.cycleIssue? (grammar : Grammar) (cycles : List (List String)) : Option Issue := do
  let first ← cycles.head?.bind List.head?
  let (file, location) := match grammar.rule? first with
    | some rule => grammar.locate rule.nameToken
    | none => (grammar.file, none)
  some (Issue.cycles file location cycles)

/-- The token rules that match nothing at all. -/
def Grammar.emptyTokens (grammar : Grammar) (network : Network) : List Rule :=
  grammar.tokenRules.filter fun rule =>
    (network.ruleStarts[rule.index]?).any fun start =>
      (network.look start none none).contains Symbol.ruleEnd

/-- The lookahead of one decision. One symbol never settles a decision that prefers to read as
little as possible. -/
def Network.lookAt (network : Network) (id : Nat) : IntervalSet.Look :=
  match network.state? id with
  | some state =>
    if state.nonGreedy then List.replicate (state.transitions.length + 1) none
    else network.decisionLook id
  | none => []

def Grammar.analyzeNetwork (grammar : Grammar) (network : Network) : Findings :=
  let cycles := network.cycles
  if !cycles.isEmpty then
    let names := (cycles.names? network.ruleNames).getD []
    ⟨false, [], (grammar.cycleIssue? names).toList⟩
  else
    match network.kind with
    | .lexer =>
      let issues := (grammar.emptyTokens network).map fun rule =>
        grammar.issueAt .epsilonToken rule.nameToken [rule.name]
      ⟨true, [], issues⟩
    | .parser => ⟨true, network.decisions.toList.map network.lookAt, []⟩

end GrammarCompiler
