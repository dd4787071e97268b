import GrammarCompiler.Network.Lookahead
import GrammarCompiler.Proofs.IntervalSet
import Mathlib.Logic.Relation

/-!
# Configurations of a network

What a network does, as far as one symbol of lookahead is concerned. A configuration is a state
with a stack of the states where callers go on. Configurations step to others as long as nothing
is read: along transitions that read nothing, into rules and back out of them. A rule at whose
start the stack was empty has callers that are not known, so at its end any of them may go on;
the links from stop states say where.

Predicates are the border of what is known. No step passes one; a configuration that can come to
one *shows* the symbol `invalid`.
-/

namespace GrammarCompiler

/-- Whether states of a kind stand between rules: their ends, and the entry of a lexer. -/
def StateKind.isBorder : StateKind → Bool
  | ruleStop | tokensStart => true
  | _ => false

theorem StateKind.isBorder_eq_false {kind : StateKind} :
    kind.isBorder = false ↔ kind ≠ .ruleStop ∧ kind ≠ .tokensStart := by
  cases kind <;> simp [isBorder]

def Transition.isCall : Transition → Bool
  | .rule .. => true
  | _ => false

namespace Network

/-- A state and where callers go on, innermost first. -/
abbrev Config := Nat × List Nat

/-- A transition may be taken from a configuration. The end of a rule that was called goes back
to the caller and nowhere else. -/
def Leaves (network : Network) (c : Config) (t : Transition) : Prop :=
  ∃ state, network.state? c.1 = some state ∧ (state.kind = .ruleStop → c.2 = []) ∧
    t ∈ state.transitions

/-- Steps that read nothing and depend on nothing. -/
inductive Step (network : Network) : Config → Config → Prop
  | epsilon {id target : Nat} {stack : List Nat} :
    network.Leaves (id, stack) (.epsilon target) → Step network (id, stack) (target, stack)
  | action {id target rule index : Nat} {stack : List Nat} :
    network.Leaves (id, stack) (.action target rule index) →
      Step network (id, stack) (target, stack)
  | call {id target rule follow : Nat} {precedence : Int} {stack : List Nat} :
    network.Leaves (id, stack) (.rule target rule precedence follow) →
      Step network (id, stack) (target, follow :: stack)
  | back {id : Nat} {state : State} {follow : Nat} {stack : List Nat} :
    network.state? id = some state → state.kind = .ruleStop →
      Step network (id, follow :: stack) (follow, stack)

/-- Any number of steps. -/
abbrev Steps (network : Network) : Config → Config → Prop :=
  Relation.ReflTransGen (Step network)

/-- The symbols that a transition reads. A wildcard and a negated set read no symbol but those
between the least and the largest one of the network. -/
def Reads (network : Network) : Transition → Int → Prop
  | .atom _ label, n => n = label
  | .range _ first last, n => first ≤ n ∧ n ≤ last
  | .set _ set, n => n ∈ set
  | .notSet _ set, n => network.minSymbol ≤ n ∧ n ≤ network.maxSymbol ∧ n ∉ set
  | .wildcard _, n => network.minSymbol ≤ n ∧ n ≤ network.maxSymbol
  | _, _ => False

/-- The symbols that can be read next from a configuration; `invalid` stands for a predicate
that comes before any of them. -/
inductive Shows (network : Network) (c : Config) : Int → Prop
  | reads {c' : Config} {t : Transition} {n : Int} :
    network.Steps c c' → network.Leaves c' t → network.Reads t n → Shows network c n
  | predicate {c' : Config} {t : Transition} :
    network.Steps c c' → network.Leaves c' t → t.isPredicate = true →
      Shows network c Symbol.invalid

/-- What is shown after a step was shown before it. -/
theorem Shows.of_step {network : Network} {c d : Config} {n : Int} (hstep : network.Step c d)
    (h : network.Shows d n) : network.Shows c n := by
  cases h with
  | reads hs hl hr => exact .reads (hs.head hstep) hl hr
  | predicate hs hl hp => exact .predicate (hs.head hstep) hl hp

/-- Every transition that reads nothing and is no predicate makes a step, unless it calls a
rule. -/
theorem Step.of_leaves {network : Network} {id : Nat} {stack : List Nat} {t : Transition}
    (h : network.Leaves (id, stack) t) (heps : t.isEpsilon = true)
    (hpred : t.isPredicate = false) (hcall : t.isCall = false) :
    network.Step (id, stack) (t.target, stack) := by
  cases t with
  | epsilon target => exact .epsilon h
  | action target rule index => exact .action h
  | rule _ _ _ _ => cases hcall
  | predicate _ _ _ | precedence _ _ => cases hpred
  | atom _ _ | range _ _ _ | set _ _ | notSet _ _ | wildcard _ => cases heps

/-! ## Symbols of a transition as a set -/

/-- The numbers in a transition are numbers of 32 bits, and its set is in order. -/
def LabelFits : Transition → Prop
  | .atom _ label => label ≤ Text.maxInt32
  | .range _ _ last => last ≤ Text.maxInt32
  | .set _ set | .notSet _ set => set.Canonical
  | _ => True

theorem readBy_spec {network : Network} (hmax : network.maxSymbol < Text.maxInt32)
    {t : Transition} (h : LabelFits t) :
    (network.readBy t).Canonical ∧ ∀ n, n ∈ network.readBy t ↔ network.Reads t n := by
  have hle : network.maxSymbol ≤ Text.maxInt32 := by omega
  cases t with
  | atom target label =>
      exact ⟨IntervalSet.canonical_single h, IntervalSet.mem_single h⟩
  | range target first last =>
      exact ⟨IntervalSet.canonical_range h, IntervalSet.mem_range h⟩
  | set target set => exact ⟨h, fun n => Iff.rfl⟩
  | notSet target set => exact IntervalSet.complement_spec h network.minSymbol hmax
  | wildcard target => exact ⟨IntervalSet.canonical_range hle, IntervalSet.mem_range hle⟩
  | epsilon _ | rule _ _ _ _ | action _ _ _ | predicate _ _ _ | precedence _ _ =>
      exact ⟨IntervalSet.canonical_empty, fun n => by
        simp [readBy, Transition.label?, Reads, IntervalSet.not_mem_empty]⟩

end Network

end GrammarCompiler
