import GrammarCompiler.Network.Basic
import GrammarCompiler.Text.Decimal
import GrammarCompiler.Vocabulary

/-!
# Networks of grammars

The network of a rule is put together from the networks of its elements. Each of them has one
state to enter and one to leave. A decision is numbered when its block is complete, so blocks
come behind the blocks inside them.

In a lexer a literal is read character by character and a token name calls the rule of that
token. In a parser both are single tokens.
-/

namespace GrammarCompiler

namespace Network

/-- What does not change while the network of a rule is built. -/
structure Scope where
  grammar : Grammar
  vocabulary : Vocabulary
  kind : NetworkKind
  /-- Number of the rule. -/
  rule : Nat
  /-- The first token of the operator loop, if the rule was left-recursive. -/
  operatorLoop : Option Nat

/-- A network under construction, with the number of actions and predicates so far. -/
structure Builder where
  network : Network
  actions : Nat
  predicates : Nat

/-- A step of the construction. -/
abbrev Build := StateM Builder

/-- The states where a part of a network is entered and left. -/
structure Handle where
  left : Nat
  right : Nat
deriving Repr, DecidableEq

/-! ## Single steps -/

namespace Build

def update (f : Network → Network) : Build Unit :=
  modify fun b => { b with network := f b.network }

def state (scope : Scope) (kind : StateKind) : Build Nat := do
  let id := (← get).network.size
  update (·.addState kind scope.rule)
  return id

def alter (id : Nat) (f : State → State) : Build Unit :=
  update (·.modifyState id f)

def transition (id : Nat) (t : Transition) : Build Unit :=
  update (·.addTransition id t)

def link (source target : Nat) : Build Unit :=
  transition source (.epsilon target)

def decision (id token : Nat) (site : DecisionSite) : Build Unit := do
  alter id fun s => { s with token := some token }
  let number := (← get).network.decisionCount
  update fun network => (network.addDecision id).addSite token site number

def nextAction : Build Nat := do
  let b ← get
  set { b with actions := b.actions + 1 }
  return b.actions

def nextPredicate : Build Nat := do
  let b ← get
  set { b with predicates := b.predicates + 1 }
  return b.predicates

/-! ## Parts -/

def single (scope : Scope) (make : Nat → Transition) : Build Handle := do
  let left ← state scope .basic
  let right ← state scope .basic
  transition left (make right)
  return ⟨left, right⟩

/-- A part that reads nothing. -/
def nothing (scope : Scope) : Build Handle :=
  single scope .epsilon

/-- The call of a rule; nothing if there is no such rule. -/
def call (scope : Scope) (name : String) (precedence : Int) : Build Handle :=
  match (scope.grammar.rule? name).filter (·.isLexerRule == (scope.kind == .lexer)) with
  | none => nothing scope
  | some callee => do
    let start := ((← get).network.ruleStarts[callee.index]?).getD 0
    single scope fun follow => .rule start callee.index precedence follow

/-- Characters that are read one after another, from the state `previous` on. The result is the
last state. -/
def characters (scope : Scope) (previous : Nat) : List Char → Build Nat
  | [] => pure previous
  | c :: cs => do
    let next ← state scope .basic
    transition previous (.atom next (Symbol.ofChar c))
    characters scope next cs

def word (scope : Scope) (text : String) : Build Handle := do
  let left ← state scope .basic
  match text.toList with
  | [] =>
    let right ← state scope .basic
    link left right
    return ⟨left, right⟩
  | cs => return ⟨left, ← characters scope left cs⟩

/-- Connects parts one after another. -/
def chain : List Handle → Build Unit
  | [] | [_] => pure ()
  | a :: b :: rest => do
    link a.right b.left
    chain (b :: rest)

/-- Puts parts one behind the other; no parts make one that reads nothing. -/
def sequence (scope : Scope) (parts : List Handle) : Build Handle :=
  match parts.head?, parts.getLast? with
  | some first, some last => do
    chain parts
    return ⟨first.left, last.right⟩
  | _, _ => nothing scope

/-- Lets parts lead side by side from one state to another. -/
def fan (start finish : Nat) : List Handle → Build Unit
  | [] => pure ()
  | part :: parts => do
    link start part.left
    link part.right finish
    fan start finish parts

/-- Completes a block: each of the parts leads from its start to a common end. -/
def block (scope : Scope) (start : Nat) (parts : List Handle) : Build Handle := do
  let finish ← state scope .blockEnd
  alter start fun s => { s with endState := some finish }
  fan start finish parts
  return ⟨start, finish⟩

def choice (scope : Scope) (token : Nat) (site : DecisionSite) : List Handle → Build Handle
  | [part] => pure part
  | parts => do
    let start ← state scope .basicBlockStart
    decision start token site
    block scope start parts

/-- The two ways on from a loop state: another round first, unless the loop prefers to end. -/
def twoWays (id again finish : Nat) (greedy : Bool) : Build Unit := do
  if greedy then
    link id again
    link id finish
  else
    link id finish
    link id again

/-- Parts that may be left out. The way around them comes last, unless the block prefers it. -/
def optional (scope : Scope) (greedy : Bool) (token : Nat) (parts : List Handle) :
    Build Handle := do
  let start ← state scope .basicBlockStart
  decision start token .optional
  let part ← block scope start parts
  alter start fun s => { s with nonGreedy := !greedy }
  if greedy then transition start (.epsilon part.right)
  else update (·.insertTransition start 0 (.epsilon part.right))
  return part

/-- Parts that may come any number of times. `token` is the first token of the block and `first`
that of the loop. -/
def star (scope : Scope) (greedy : Bool) (token first : Nat) (parts : List Handle) :
    Build Handle := do
  let start ← state scope .starBlockStart
  if 1 < parts.length then decision start token .starBlock
  let part ← block scope start parts
  let entry ← state scope .starLoopEntry
  alter entry fun s =>
    { s with nonGreedy := !greedy, isPrecedence := scope.operatorLoop == some first }
  decision entry first .starLoopEntry
  let finish ← state scope .loopEnd
  let back ← state scope .starLoopBack
  alter entry fun s => { s with loopBack := some back, endState := some finish }
  alter finish fun s => { s with loopBack := some back }
  twoWays entry part.left finish greedy
  link part.right back
  link back entry
  return ⟨entry, finish⟩

/-- Parts that come at least once. -/
def plus (scope : Scope) (greedy : Bool) (token first : Nat) (parts : List Handle) :
    Build Handle := do
  let start ← state scope .plusBlockStart
  if 1 < parts.length then decision start token .plusBlock
  let part ← block scope start parts
  let back ← state scope .plusLoopBack
  alter back fun s => { s with nonGreedy := !greedy }
  decision back first .plusLoopBack
  let finish ← state scope .loopEnd
  alter start fun s => { s with loopBack := some back }
  alter finish fun s => { s with loopBack := some back }
  alter back fun s => { s with endState := some finish }
  link part.right back
  twoWays back part.left finish greedy
  return ⟨part.left, finish⟩

def suffixed (scope : Scope) (suffix : Suffix) (greedy : Bool) (token first : Nat)
    (parts : List Handle) : Build Handle :=
  match suffix with
  | .optional => optional scope greedy token parts
  | .closure => star scope greedy token first parts
  | .positiveClosure => plus scope greedy token first parts

end Build

/-! ## Labels -/

def firstSymbol (literal : Quotation) : Int :=
  (literal.value.toList.head?.map Symbol.ofChar).getD 0

mutual
/-- Adds the symbols that an element in a set stands for. -/
def addSymbols (scope : Scope) (set : IntervalSet) : Element → IntervalSet
  | .quotation literal =>
    match scope.kind with
    | .lexer => (literal.value.toList.map Symbol.ofChar).foldl IntervalSet.add set
    | .parser => ((scope.vocabulary.literalType? literal.value).map set.add).getD set
  | .range first last _ => set.addRange (firstSymbol first) (firstSymbol last)
  | .tokenRef name _ _ =>
    match scope.kind with
    | .lexer => set
    | .parser => ((scope.vocabulary.type? name).map set.add).getD set
  | .set elements _ => set.addAll (addAllSymbols scope .empty elements)
  | _ => set

/-- Adds the symbols that the elements of a set stand for. -/
def addAllSymbols (scope : Scope) (set : IntervalSet) : List Element → IntervalSet
  | [] => set
  | e :: es => addAllSymbols scope (addSymbols scope set e) es
end

def operandSymbols (scope : Scope) : Element → IntervalSet
  | .set elements _ => addAllSymbols scope .empty elements
  | element => addSymbols scope .empty element

/-! ## Elements -/

def precedenceIn? (options : Options) : Option Int :=
  (options.get? precedenceOption).bind Text.precedence?

mutual
def element (scope : Scope) : Element → Build Handle
  | .block alts _ extent => do
    Build.choice scope extent.start .block (← altParts scope alts)
  | .suffixed suffix greedy (.block alts _ inner) extent => do
    Build.suffixed scope suffix greedy inner.start extent.start (← altParts scope alts)
  | .suffixed suffix greedy inner extent => do
    let part ← element scope inner
    Build.suffixed scope suffix greedy inner.extent.start extent.start [part]
  | .labeled _ _ _ inner _ => element scope inner
  | .ruleRef r => Build.call scope r.name ((precedenceIn? r.options).getD 0)
  | .tokenRef name _ _ =>
    match scope.kind with
    | .lexer => Build.call scope name 0
    | .parser =>
      let type := (scope.vocabulary.type? name).getD Symbol.invalid
      Build.single scope fun target => .atom target type
  | .quotation literal =>
    match scope.kind with
    | .lexer => Build.word scope literal.value
    | .parser =>
      let type := (scope.vocabulary.literalType? literal.value).getD Symbol.invalid
      Build.single scope fun target => .atom target type
  | .range first last _ =>
    Build.single scope fun target => .range target (firstSymbol first) (firstSymbol last)
  | .wildcard _ _ =>
    Build.single scope fun target =>
      match scope.kind with
      | .lexer => .set target (.range 0 Symbol.lastChar)
      | .parser => .wildcard target
  | .set elements _ =>
    Build.single scope fun target => .set target (addAllSymbols scope .empty elements)
  | .not operand _ =>
    Build.single scope fun target => .notSet target (operandSymbols scope operand)
  | .action _ => do
    let index ← Build.nextAction
    Build.single scope fun target => .action target scope.rule index
  | .predicate code =>
    match precedenceIn? code.options with
    | some precedence => Build.single scope fun target => .precedence target precedence
    | none => do
      let index ← Build.nextPredicate
      Build.single scope fun target => .predicate target scope.rule index
  | .command .. => Build.nothing scope
  | .epsilon _ => Build.nothing scope

def elementParts (scope : Scope) : List Element → Build (List Handle)
  | [] => pure []
  | e :: es => do
    let part ← element scope e
    let parts ← elementParts scope es
    return part :: parts

def alternative (scope : Scope) : Alt → Build Handle
  | ⟨elements, _, _, _, _⟩ => do Build.sequence scope (← elementParts scope elements)

def altParts (scope : Scope) : List Alt → Build (List Handle)
  | [] => pure []
  | a :: as => do
    let part ← alternative scope a
    let parts ← altParts scope as
    return part :: parts
end

/-! ## Rules -/

/-- The first token of the operator loop of a rule that was left-recursive. -/
def operatorLoop? (rule : Rule) (definition : RuleDef) : Option Nat := do
  let _ ← rule.leftRecursion
  let main ← definition.alts.head?
  match main.elements with
  | _ :: .suffixed .closure _ _ extent :: _ => some extent.start
  | _ => none

/-- Adds the start and stop states of a rule. They come before the bodies of all rules, so that
a rule may be called before it is complete. -/
def declareRule (network : Network) (rule : Rule) : Network :=
  let start := network.size
  (network.addRule rule.name rule.index).modifyState start fun s =>
    { s with endState := some (start + 1), isPrecedence := rule.leftRecursion.isSome }

/-- Fills in the body of a rule. -/
def buildRule (grammar : Grammar) (vocabulary : Vocabulary) (kind : NetworkKind) (rule : Rule)
    (definition : RuleDef) : Build Unit := do
  let scope : Scope :=
    { grammar, vocabulary, kind, rule := rule.index
      operatorLoop := operatorLoop? rule definition }
  let parts ← altParts scope definition.alts
  let body ← Build.choice scope definition.block.extent.start .ruleBlock parts
  let network := (← get).network
  let start := (network.ruleStarts[rule.index]?).getD 0
  let stop := (network.ruleStops[rule.index]?).getD 0
  Build.link start body.left
  Build.link body.right stop
  match network.tokensStart with
  | some tokens => if rule.isFragment then pure () else Build.link tokens start
  | none => pure ()

def buildRules (grammar : Grammar) (vocabulary : Vocabulary) (kind : NetworkKind) :
    List Rule → Build Unit
  | [] => pure ()
  | rule :: rules => do
    match grammar.definition? rule with
    | some definition => buildRule grammar vocabulary kind rule definition
    | none => pure ()
    buildRules grammar vocabulary kind rules

/-- The calls of a network: the rule that is called and where the caller goes on. -/
def calls (network : Network) : List (Nat × Nat) :=
  network.transitions.filterMap fun
    | .rule _ rule _ follow => some (rule, follow)
    | _ => none

/-- Lets the stop state of every rule lead to all places where its callers go on. -/
def addReturns (network : Network) : Network :=
  network.calls.foldl (fun network (rule, follow) =>
    network.addTransition ((network.ruleStops[rule]?).getD 0) (.epsilon follow)) network

/-- The entry of a lexer, a decision between all tokens. -/
def addTokensStart (network : Network) : Network :=
  let id := network.size
  let decision := network.decisionCount
  { ((network.addState .tokensStart 0).addDecision id).addSite 0 .tokensStart decision with
    tokensStart := some id }

def ofGrammar (grammar : Grammar) (vocabulary : Vocabulary) (kind : NetworkKind) : Network :=
  let network := match kind with
    | .lexer => (Network.empty kind Symbol.lastChar).addTokensStart
    | .parser => Network.empty kind vocabulary.maxType
  let rules := match kind with
    | .lexer => grammar.lexerRules
    | .parser => grammar.parserRules
  let network := rules.foldl declareRule network
  let (_, builder) := (buildRules grammar vocabulary kind rules).run ⟨network, 0, 0⟩
  builder.network.addReturns

end Network

end GrammarCompiler
