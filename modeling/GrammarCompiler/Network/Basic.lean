import GrammarCompiler.IntervalSet

/-!
# Transition networks

A network describes the rules of one kind of a grammar. Every rule is a part of it with a start
state and a stop state. A transition reads a symbol, calls a rule, or does neither. A call
leads to the start state of a rule and remembers where to go on. States at which a parser has to
choose are decisions and are numbered.

States are known by their place in `states`.
-/

namespace GrammarCompiler

/-- What a network reads: characters or tokens. -/
inductive NetworkKind where
  | lexer
  | parser
deriving Repr, DecidableEq

/-- The parts that states play. -/
inductive StateKind where
  | basic
  | basicBlockStart
  | plusBlockStart
  | starBlockStart
  | blockEnd
  | plusLoopBack
  | starLoopEntry
  | starLoopBack
  | loopEnd
  | ruleStart
  | ruleStop
  /-- The choice of a lexer between all tokens. -/
  | tokensStart
deriving Repr, DecidableEq

def StateKind.isBlockStart : StateKind → Bool
  | basicBlockStart | plusBlockStart | starBlockStart => true
  | _ => false

inductive Transition where
  | epsilon (target : Nat)
  | atom (target : Nat) (label : Int)
  | range (target : Nat) (first last : Int)
  | set (target : Nat) (set : IntervalSet)
  | notSet (target : Nat) (set : IntervalSet)
  | wildcard (target : Nat)
  /-- The call of a rule with the start state `target`; the caller goes on at `follow`. -/
  | rule (target rule : Nat) (precedence : Int) (follow : Nat)
  | action (target rule index : Nat)
  | predicate (target rule index : Nat)
  /-- Passes if the rule was entered with at most this precedence. -/
  | precedence (target : Nat) (precedence : Int)
deriving Repr, DecidableEq

namespace Transition

def target : Transition → Nat
  | epsilon t | atom t _ | range t _ _ | set t _ | notSet t _ | wildcard t => t
  | rule t _ _ _ | action t _ _ | predicate t _ _ | precedence t _ => t

/-- Whether a transition reads nothing. The call of a rule reads nothing by itself. -/
def isEpsilon : Transition → Bool
  | epsilon .. | rule .. | action .. | predicate .. | precedence .. => true
  | _ => false

def isPredicate : Transition → Bool
  | predicate .. | precedence .. => true
  | _ => false

/-- The symbols that a transition names: those it reads, or those it does not read in the case
of a negated set. -/
def label? : Transition → Option IntervalSet
  | atom _ label => some (.single label)
  | range _ first last => some (.range first last)
  | set _ s | notSet _ s => some s
  | _ => none

end Transition

structure State where
  /-- The number of the state in its network. -/
  id : Nat
  kind : StateKind
  /-- The rule that the state belongs to. -/
  rule : Nat
  transitions : List Transition := []
  decision : Option Nat := none
  nonGreedy : Bool := false
  /-- The end of the block, loop or rule that begins here. -/
  endState : Option Nat := none
  loopBack : Option Nat := none
  /-- Set for the start of a rule without its left recursion, and for its operator loop. -/
  isPrecedence : Bool := false
  /-- The first token of what the decision is about. -/
  token : Option Nat := none
deriving Repr, DecidableEq

/-- Whether all transitions of a state read nothing. -/
def State.isEpsilonOnly (state : State) : Bool :=
  state.transitions.all (·.isEpsilon)

/-- What a decision is about. Together with the first token of the construct it identifies the
decision. -/
inductive DecisionSite where
  /-- The alternatives of a rule. -/
  | ruleBlock
  /-- The alternatives of a block without a suffix. -/
  | block
  /-- The alternatives of an optional block, or none of them. -/
  | optional
  /-- The alternatives inside a star loop. -/
  | starBlock
  /-- Another round of a star loop or its end. -/
  | starLoopEntry
  /-- The alternatives inside a plus loop. -/
  | plusBlock
  /-- Another round of a plus loop or its end. -/
  | plusLoopBack
  /-- All tokens. -/
  | tokensStart
deriving Repr, DecidableEq

structure Network where
  kind : NetworkKind
  /-- The largest symbol that is read. -/
  maxSymbol : Int
  states : Array State := #[]
  /-- The state of each decision. -/
  decisions : Array Nat := #[]
  /-- The start state of each rule. -/
  ruleStarts : Array Nat := #[]
  /-- The stop state of each rule. -/
  ruleStops : Array Nat := #[]
  ruleNames : Array String := #[]
  tokensStart : Option Nat := none
  sites : List ((Nat × DecisionSite) × Nat) := []
deriving Repr

namespace Network

def empty (kind : NetworkKind) (maxSymbol : Int) : Network :=
  { kind, maxSymbol }

def size (network : Network) : Nat :=
  network.states.size

def state? (network : Network) (id : Nat) : Option State :=
  network.states[id]?

/-! ## Adding states and transitions -/

def addState (network : Network) (kind : StateKind) (rule : Nat) : Network :=
  { network with states := network.states.push { id := network.size, kind, rule } }

def modifyState (network : Network) (id : Nat) (f : State → State) : Network :=
  { network with states := network.states.modify id f }

theorem size_addState (network : Network) (kind : StateKind) (rule : Nat) :
    (network.addState kind rule).size = network.size + 1 := by
  simp [addState, size]

theorem size_modifyState (network : Network) (id : Nat) (f : State → State) :
    (network.modifyState id f).size = network.size := by
  simp [modifyState, size]

theorem state?_addState_self (network : Network) (kind : StateKind) (rule : Nat) :
    (network.addState kind rule).state? network.size = some { id := network.size, kind, rule } := by
  simp [addState, state?, size]

def addTransition (network : Network) (id : Nat) (t : Transition) : Network :=
  network.modifyState id fun s => { s with transitions := s.transitions ++ [t] }

/-- Adds a transition among those of a state. -/
def insertTransition (network : Network) (id index : Nat) (t : Transition) : Network :=
  network.modifyState id fun s => { s with transitions := s.transitions.insertIdx index t }

/-- Adds a rule with its start state and stop state. -/
def addRule (network : Network) (name : String) (rule : Nat) : Network :=
  let start := network.size
  let network := (network.addState .ruleStart rule).addState .ruleStop rule
  { network with
    ruleStarts := network.ruleStarts.push start
    ruleStops := network.ruleStops.push (start + 1)
    ruleNames := network.ruleNames.push name }

/-! ## Decisions -/

def decisionCount (network : Network) : Nat :=
  network.decisions.size

def addDecision (network : Network) (id : Nat) : Network :=
  let decision := network.decisionCount
  { network with decisions := network.decisions.push id }.modifyState id fun s =>
    { s with decision := some decision }

/-- Files a decision under a key, in the place of one that was there. -/
def setSite (key : Nat × DecisionSite) (decision : Nat) :
    List ((Nat × DecisionSite) × Nat) → List ((Nat × DecisionSite) × Nat)
  | [] => [(key, decision)]
  | (k, d) :: rest => if k = key then (k, decision) :: rest else (k, d) :: setSite key decision rest

/-- Notes what a decision is about. -/
def addSite (network : Network) (token : Nat) (site : DecisionSite) (decision : Nat) : Network :=
  { network with sites := setSite (token, site) decision network.sites }

def decisionAt? (network : Network) (token : Nat) (site : DecisionSite) : Option Nat :=
  network.sites.lookup (token, site)

def decisionState? (network : Network) (decision : Nat) : Option State :=
  (network.decisions[decision]?).bind network.state?

/-- Number of alternatives of a decision, 0 if there is no such decision. -/
def altCount (network : Network) (decision : Nat) : Nat :=
  ((network.decisionState? decision).map (·.transitions.length)).getD 0

def transitions (network : Network) : List Transition :=
  network.states.toList.flatMap (·.transitions)

def callCount (network : Network) : Nat :=
  network.transitions.countP fun
    | .rule .. => true
    | _ => false

end Network

end GrammarCompiler
