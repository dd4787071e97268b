import GrammarCompiler.Ast.Basic
import GrammarCompiler.Model.TestSet

/-!
# The model of a parser

What a generated parser does, one function for each parser rule. Everything is decided here
except the wording of the code: in particular, whether a choice is settled by the next token
(the `ll1` kinds of `ChoiceKind`) or left to a prediction that may look further ahead.
-/

namespace GrammarCompiler

/-! ## Choices -/

inductive ChoiceKind where
  | ll1AltBlock
  | ll1OptionalBlock
  | ll1OptionalBlockSingleAlt
  | ll1StarBlockSingleAlt
  | ll1PlusBlockSingleAlt
  | altBlock
  | optionalBlock
  | starBlock
  | plusBlock
deriving Repr, DecidableEq

namespace ChoiceKind

def isLL1 : ChoiceKind → Bool
  | ll1AltBlock | ll1OptionalBlock | ll1OptionalBlockSingleAlt => true
  | ll1StarBlockSingleAlt | ll1PlusBlockSingleAlt => true
  | altBlock | optionalBlock | starBlock | plusBlock => false

/-- The kind of a choice between `altCount` alternatives under a suffix. `settled` tells that
the next token settles it. Loops get such a kind only for a single alternative. -/
def choose (settled : Bool) (suffix : Option Suffix) (altCount : Nat) : ChoiceKind :=
  match suffix with
  | none => if settled then ll1AltBlock else altBlock
  | some .optional =>
    if settled then
      if altCount = 1 then ll1OptionalBlockSingleAlt else ll1OptionalBlock
    else optionalBlock
  | some .closure => if settled && altCount = 1 then ll1StarBlockSingleAlt else starBlock
  | some .positiveClosure =>
    if settled && altCount = 1 then ll1PlusBlockSingleAlt else plusBlock

end ChoiceKind

/-! ## Operations -/

mutual
/-- One step of a rule. -/
inductive Operation where
  | matchToken (type : Int) (label : Option String)
  | matchSet (set : TestSet) (invert : Bool)
  | wildcard (label : Option String)
  | invoke (rule : String) (precedence : Option Int) (label : Option String)
  | action (text : String)
  | predicate (text : String)
  /-- Passes if the rule was entered with at most this precedence. -/
  | precedence (precedence : Int)
  | choice (choice : Choice)
deriving Repr

structure Choice where
  kind : ChoiceKind
  decision : Nat
  alts : List AltCode
  /-- If the next token settles the choice, the tokens that select each alternative. For loops
  and optional blocks the last entry stands for going on behind them. -/
  look : List TestSet
deriving Repr

structure AltCode where
  num : Nat
  ops : List Operation
deriving Repr
end

structure RuleFunction where
  name : String
  index : Nat
  isLeftRecursive : Bool
  altLabels : List (String × Nat)
  body : List Operation
deriving Repr

/-- A parser. -/
structure ParserModel where
  name : String
  /-- The tokens that have names, with their types. -/
  tokens : List (String × Int)
  rules : List RuleFunction
  listener : Bool
  visitor : Bool
  /-- The module that the code is put in. -/
  package : Option String
deriving Repr

mutual
/-- The choices in a step, outer ones before inner ones. -/
def Operation.choices : Operation → List Choice
  | .choice c => c :: c.innerChoices
  | .matchToken .. | .matchSet .. | .wildcard .. | .invoke .. => []
  | .action .. | .predicate .. | .precedence .. => []

def Operation.listChoices : List Operation → List Choice
  | [] => []
  | op :: ops => op.choices ++ Operation.listChoices ops

def Choice.innerChoices : Choice → List Choice
  | ⟨_, _, alts, _⟩ => AltCode.listChoices alts

def AltCode.choices : AltCode → List Choice
  | ⟨_, ops⟩ => Operation.listChoices ops

def AltCode.listChoices : List AltCode → List Choice
  | [] => []
  | alt :: alts => alt.choices ++ AltCode.listChoices alts
end

namespace ParserModel

def choices (model : ParserModel) : List Choice :=
  model.rules.flatMap fun rule => Operation.listChoices rule.body

def ruleIndex? (model : ParserModel) (name : String) : Option Nat :=
  model.rules.findIdx? (·.name == name)

end ParserModel

end GrammarCompiler
