import GrammarCompiler.Analysis
import GrammarCompiler.Model.Build
import GrammarCompiler.Proofs.Model.Run
import GrammarCompiler.Proofs.Network.Config

/-!
# Steps laid out in a network

Steps of a model are *laid out* between two states of the network if the network can follow
every run of them (`Laid`): what a step reads, a transition reads; where a choice leads, the
network gets without reading; and where one token settles the choice, it is the way behind which
that token is shown.

The relation has one rule for each kind of step. Loops that must come once have no states of
their own: their body leads to the state that decides about another round.
-/

namespace GrammarCompiler

namespace Network

/-- A transition that is taken whatever comes behind it: it does not leave the stop state of a
rule. -/
def Has (network : Network) (id : Nat) (t : Transition) : Prop :=
  ∃ state, network.state? id = some state ∧ state.kind ≠ .ruleStop ∧ t ∈ state.transitions

theorem Has.leaves {network : Network} {id : Nat} {t : Transition} (h : network.Has id t)
    (stack : List Nat) : network.Leaves (id, stack) t := by
  obtain ⟨state, hstate, hkind, ht⟩ := h
  exact ⟨state, hstate, fun hstop => absurd hstop hkind, ht⟩

/-- What is shown after steps was shown before them. -/
theorem Shows.of_steps {network : Network} {c d : Config} {n : Int} (hsteps : network.Steps c d)
    (h : network.Shows d n) : network.Shows c n := by
  induction hsteps using Relation.ReflTransGen.head_induction_on with
  | refl => exact h
  | head hstep _ ih => exact ih.of_step hstep

end Network

namespace ParserModel

namespace Source

/-- The network gets from one state to another without reading, whatever comes behind. -/
def Passes (source : Source) (a b : Nat) : Prop :=
  ∀ stack, source.network.Steps (a, stack) (b, stack)

/-- Where one token settles a choice, it selects a way if it is shown there, and no predicate
comes before it. -/
structure Settles (source : Source) (choice : Choice) (targets : Nat → Nat)
    (exit : Option Nat) : Prop where
  enter : choice.kind.isLL1 = true → ∀ k < choice.alts.length,
    ¬source.network.Shows (targets k, []) Symbol.invalid ∧
      ∀ n, source.network.Shows (targets k, []) n → choice.dispatch n = some k
  pass : choice.kind.isLL1 = true → ∀ id, exit = some id →
    ¬source.network.Shows (id, []) Symbol.invalid ∧
      ∀ n, source.network.Shows (id, []) n → choice.dispatch n = none

mutual
/-- Steps are laid out from one state to another. -/
inductive Laid (source : Source) : List Operation → Nat → Nat → Prop
  | nil {a b : Nat} : source.Passes a b → Laid source [] a b
  | cons {op : Operation} {ops : List Operation} {a b c d : Nat} :
      source.Passes a b → LaidStep source op b c → Laid source ops c d →
        Laid source (op :: ops) a d

inductive LaidStep (source : Source) : Operation → Nat → Nat → Prop
  | token {type : Int} {label : Option String} {a b : Nat} :
      source.network.Has a (.atom b type) → LaidStep source (.matchToken type label) a b
  | set {set : TestSet} {invert : Bool} {t : Transition} {a b : Nat} :
      source.network.Has a t → t.target = b →
        (∀ n, set.Passes invert source.network.maxSymbol n → source.network.Reads t n) →
        LaidStep source (.matchSet set invert) a b
  | wildcard {label : Option String} {a b : Nat} :
      source.network.Has a (.wildcard b) → LaidStep source (.wildcard label) a b
  | invoke {name : String} {precedence : Option Int} {label : Option String} {a b : Nat} :
      (∀ callee, source.grammar.rule? name = some callee → callee.isLexerRule = false →
        ∃ start p, source.network.ruleStarts[callee.index]? = some start ∧
          source.network.Has a (.rule start callee.index p b)) →
        LaidStep source (.invoke name precedence label) a b
  | action {text : String} {rule index a b : Nat} :
      source.network.Has a (.action b rule index) → LaidStep source (.action text) a b
  | predicate {text : String} {rule index a b : Nat} :
      source.network.Has a (.predicate b rule index) → LaidStep source (.predicate text) a b
  | precedence {p : Int} {a b : Nat} :
      source.network.Has a (.precedence b p) → LaidStep source (.precedence p) a b
  | block {choice : Choice} {targets : Nat → Nat} {a b : Nat} :
      choice.kind.isStar = false → choice.kind.isPlus = false →
        (∀ k < choice.alts.length, source.Passes a (targets k)) →
        (choice.kind.isBlock = false → source.Passes a b) →
        source.Settles choice targets (if choice.kind.isBlock then none else some b) →
        (∀ k alt, choice.alts[k]? = some alt → Laid source alt.ops (targets k) b) →
        LaidStep source (.choice choice) a b
  | star {choice : Choice} {targets : Nat → Nat} {a b : Nat} :
      choice.kind.isStar = true →
        (∀ k < choice.alts.length, source.Passes a (targets k)) → source.Passes a b →
        source.Settles choice targets (some b) →
        (∀ k alt, choice.alts[k]? = some alt → Laid source alt.ops (targets k) a) →
        LaidStep source (.choice choice) a b
  | plus {choice : Choice} {a b c : Nat} :
      choice.kind.isPlus = true → Laid source choice.body a b →
        LaidStep source (.choice choice.again) b c → LaidStep source (.choice choice) a c
end

section Laid

variable {source : Source} {a b c : Nat}

/-! ## Ways without reading -/

theorem Passes.refl (source : Source) (a : Nat) : source.Passes a a :=
  fun _ => .refl

theorem Passes.trans (h : source.Passes a b) (h' : source.Passes b c) : source.Passes a c :=
  fun stack => (h stack).trans (h' stack)

theorem Passes.of_has (h : source.network.Has a (.epsilon b)) : source.Passes a b :=
  fun stack => .single (.epsilon (h.leaves stack))

/-! ## Putting steps together -/

theorem Laid.before (h : source.Passes a b) {ops : List Operation} (hlaid : Laid source ops b c) :
    Laid source ops a c := by
  cases hlaid with
  | nil hpass => exact .nil (h.trans hpass)
  | cons hpass hstep hrest => exact .cons (h.trans hpass) hstep hrest

theorem Laid.append {ops ops' : List Operation} (h : Laid source ops a b)
    (h' : Laid source ops' b c) : Laid source (ops ++ ops') a c := by
  induction ops generalizing a with
  | nil =>
      cases h with
      | nil hpass => exact h'.before hpass
  | cons op ops ih =>
      cases h with
      | cons hpass hstep hrest => exact .cons hpass hstep (ih hrest)

theorem Laid.after {ops : List Operation} (h : Laid source ops a b) (hpass : source.Passes b c) :
    Laid source ops a c := by
  have h' := h.append (.nil hpass)
  rw [List.append_nil] at h'
  exact h'

theorem LaidStep.alone {op : Operation} (h : LaidStep source op a b) : Laid source [op] a b :=
  .cons (.refl source a) h (.nil (.refl source b))

end Laid

end Source

end ParserModel

end GrammarCompiler
