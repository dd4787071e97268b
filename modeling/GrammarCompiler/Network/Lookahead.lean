import Std.Data.HashSet
import GrammarCompiler.Network.Basic
import GrammarCompiler.Symbol

/-!
# Lookahead

The symbols that can be read next from a state. The search follows transitions that read
nothing, keeping a stack of the states where callers go on. A rule is not called again while it
is being called, and no state is entered twice with the same stack.

What happens at the end of the outermost rule depends on what is known there. If nothing is
known about its callers, the end itself is noted. If it is known to have none, either the end of
the input is noted or, for a decision, the search goes on behind all calls of the rule.
-/

namespace GrammarCompiler

namespace Network

/-- What a search is to do in the cases that differ. -/
structure LookMode where
  /-- A state that ends the search like the end of a rule. -/
  stop : Option Nat
  /-- Whether the callers are known. -/
  rooted : Bool
  /-- Whether predicates count as passed. -/
  throughPredicates : Bool
  /-- Whether the end of the outermost rule is the end of the input. -/
  toEnd : Bool
deriving Repr, DecidableEq

structure Search where
  look : IntervalSet := .empty
  /-- The states that were entered, with their stacks. -/
  busy : Std.HashSet (Nat × List Nat) := ∅
  /-- Whether the search left the network for a state that does not exist. -/
  lost : Bool := false

namespace Search

def add (search : Search) (symbol : Int) : Search :=
  { search with look := search.look.add symbol }

def addAll (search : Search) (symbols : IntervalSet) : Search :=
  { search with look := search.look.addAll symbols }

end Search

/-- The least symbol that a wildcard reads. -/
def minSymbol (network : Network) : Int :=
  match network.kind with
  | .lexer => 0
  | .parser => Symbol.firstToken

/-- The symbols that a transition reads. -/
def readBy (network : Network) : Transition → IntervalSet
  | .wildcard _ => .range network.minSymbol network.maxSymbol
  | .notSet _ set => set.complement network.minSymbol network.maxSymbol
  | t => t.label?.getD .empty

/-- What is noted at a state that ends the search. -/
def LookMode.ending? (mode : LookMode) (id : Nat) (state : State) (stack : List Nat) :
    Option Int :=
  if (mode.stop == some id || state.kind == .ruleStop) && stack.isEmpty then
    if !mode.rooted then some Symbol.ruleEnd
    else if mode.toEnd then some Symbol.eof
    else none
  else none

/-- Searches from the state `id`. `stack` holds where callers go on, innermost first, and
`called` the rules that are being called. -/
def visit (network : Network) (mode : LookMode) : Nat → Nat → List Nat → List Nat → Search → Search
  | 0, _, _, _, search => search
  | fuel + 1, id, stack, called, search =>
    if search.busy.contains (id, stack) then search
    else
      let search := { search with busy := search.busy.insert (id, stack) }
      match network.state? id with
      | none => { search with lost := true }
      | some state =>
        match mode.ending? id state stack with
        | some symbol => search.add symbol
        | none =>
          let goOn (search : Search) : Search :=
            state.transitions.foldl (fun search t =>
              match t with
              | .rule target rule _ follow =>
                if called.contains rule then search
                else visit network mode fuel target (follow :: stack) (rule :: called) search
              | t =>
                if t.isPredicate && !mode.throughPredicates then search.add Symbol.invalid
                else if t.isEpsilon then visit network mode fuel t.target stack called search
                else search.addAll (network.readBy t)) search
          match stack with
          | back :: outer =>
            if state.kind = .ruleStop then
              visit network mode fuel back outer (called.erase state.rule) search
            else goOn search
          | [] => goOn search

/-- An upper bound for the length of a path on which no state is entered twice with the same
stack. A stack grows only by calls of rules that are not being called, so it holds at most one
entry for every call besides those it began with. -/
def visitBound (network : Network) (stack : List Nat) : Nat :=
  let calls := network.callCount
  let places := network.transitions.length + calls + stack.length + 1
  places * Nat.pow (calls + stack.length + 1) (calls + stack.length) + 1

def searchFrom (network : Network) (mode : LookMode) (id : Nat) (stack : List Nat) : Search :=
  network.visit mode (network.visitBound stack) id stack [] {}

/-- How the symbols behind a state are searched. -/
def followMode (stop : Option Nat) (rooted : Bool) : LookMode :=
  { stop, rooted, throughPredicates := true, toEnd := true }

/-- How the symbols of an alternative are searched. -/
def decisionMode : LookMode :=
  { stop := none, rooted := true, throughPredicates := false, toEnd := false }

/-- The search for the symbols behind a state, up to the state `stop`. The context lists where
callers go on, outermost first; without one, nothing is known about callers. -/
def lookSearch (network : Network) (id : Nat) (stop : Option Nat) (context : Option (List Nat)) :
    Search :=
  network.searchFrom (followMode stop context.isSome) id (context.getD []).reverse

/-- The symbols that can be read next from a state. -/
def look (network : Network) (id : Nat) (stop : Option Nat) (context : Option (List Nat)) :
    IntervalSet :=
  (network.lookSearch id stop context).look

/-- The searches for the alternatives of a decision, one for each transition. -/
def decisionSearches (network : Network) (id : Nat) : List Search :=
  ((network.state? id).map (·.transitions)).getD [] |>.map fun t =>
    network.searchFrom decisionMode t.target []

/-- What a search tells about an alternative: nothing, if it found no symbols or a predicate has
the last word. -/
def Search.alternative? (search : Search) : Option IntervalSet :=
  if search.look.isEmpty || search.look.contains Symbol.invalid then none else some search.look

def decisionLook (network : Network) (id : Nat) : IntervalSet.Look :=
  (network.decisionSearches id).map (·.alternative?)

end Network

end GrammarCompiler
