import GrammarCompiler.Ast.Basic

/-!
# The text of a rule without left recursion

A left-recursive rule is replaced by a loop: a primary alternative, then any number of operator
alternatives, each behind a predicate that tests the precedence of its operator against the
precedence demanded where the rule was entered. The new rule is written as text and read like
any other rule.
-/

namespace GrammarCompiler

/-- The two names that the text of a predicate depends on. -/
structure Layout where
  /-- The name under which a predicate finds the rule it stands in. -/
  context : String := "_ctx"
  /-- The option that holds the precedence of an operator. -/
  precedence : String := precedenceOption
deriving Repr, DecidableEq

structure OperatorRule where
  name : String
  args : Option String
  returns : Option String
  /-- The texts of the primary alternatives. -/
  primary : List String
  /-- The precedences and texts of the operator alternatives. -/
  operators : List (Nat × String)
deriving Repr, DecidableEq

namespace Layout

/-- The names that are used unless others are asked for. -/
def standard : Layout := {}

def predicate (layout : Layout) (precedence : Nat) : String :=
  s!"precpred({layout.context}, {precedence})"

/-- An operator alternative behind its predicate. -/
def operator (layout : Layout) (precedence : Nat) (text : String) : String :=
  "\x7b" ++ layout.predicate precedence ++ "\x7d?<" ++ layout.precedence ++ "=" ++
    toString precedence ++ "> " ++ text

/-- The text in front of the colon. -/
def heading (rule : OperatorRule) : String :=
  rule.name ++
  (rule.args.elim "" fun args => "[" ++ args ++ "]") ++
  (rule.returns.elim "" fun returns => " returns [" ++ returns ++ "]")

/-- The block of the primary alternatives, which begins with an empty action. -/
def primaryBlock (rule : OperatorRule) : String :=
  "( \x7b\x7d " ++ "\n        | ".intercalate rule.primary ++ "\n        )"

/-- The loop over the operator alternatives; nothing if there are none. -/
def operatorLoop (layout : Layout) (rule : OperatorRule) : String :=
  if rule.operators.isEmpty then ""
  else
    "\n        (\n          " ++
    "\n          | ".intercalate
      (rule.operators.map fun (precedence, text) => layout.operator precedence text) ++
    "\n        )*"

def rule (layout : Layout) (rule : OperatorRule) : String :=
  heading rule ++ "\n    :   " ++ primaryBlock rule ++ layout.operatorLoop rule ++ "\n    ;"

end Layout

end GrammarCompiler
