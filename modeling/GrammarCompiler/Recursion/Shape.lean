import GrammarCompiler.Ast.Walk

/-!
# Shapes of alternatives

A rule is left-recursive if one of its alternatives begins with a reference to the rule itself.
The alternatives of such a rule are told apart by where they refer to it: at the front, at the
end, or both. Actions and predicates at the end do not count.
-/

namespace GrammarCompiler

/-- The shapes of alternatives, with `e` for the rule itself. -/
inductive AltShape where
  /-- An operator between two operands: `e op e`. -/
  | binary
  /-- An operator with more than two operands: `e op e op e`. -/
  | ternary
  /-- An operator behind its operand: `e op`. -/
  | suffix
  /-- An operator in front of its operand: `op e`. -/
  | front
  /-- Anything else. -/
  | other
deriving Repr, DecidableEq

/-- Why a left-recursive rule cannot be taken apart. Every reason names an alternative. -/
inductive Nonconformity where
  | loneSelfReference (alt : Nat)
  | takesArguments (alt : Nat)
  | emptyAlternative (alt : Nat)
deriving Repr, DecidableEq

def Nonconformity.message : Nonconformity → String
  | loneSelfReference alt => s!"alternative {alt} only references the rule itself"
  | takesArguments alt => s!"the left-recursive reference in alternative {alt} takes arguments"
  | emptyAlternative alt => s!"alternative {alt} is empty"

/-- Elements that match nothing and do not count at the end of an alternative. -/
def Element.isSilent : Element → Bool
  | .action _ | .predicate _ | .epsilon _ => true
  | _ => false

namespace Alt

/-- The index of the last element that counts; 0 if there is none. -/
def lastCounting (alt : Alt) : Nat :=
  alt.elements.length - (alt.elements.reverse.takeWhile Element.isSilent).length - 1

def refsTo (alt : Alt) (name : String) : List Nat :=
  (alt.elements.zipIdx.filter (·.1.refersTo name)).map (·.2)

def beginsWith (alt : Alt) (name : String) : Bool :=
  alt.elements.head?.any (·.refersTo name)

def endsWith (alt : Alt) (name : String) : Bool :=
  (alt.refsTo name).getLast? == some alt.lastCounting

/-- Whether the first element is a reference with arguments. -/
def beginsWithArguments (alt : Alt) : Bool :=
  (alt.elements.head?.bind Element.asRuleRef?).any (·.args.isSome)

/-- The shape of the alternative `num` of the rule `name`. -/
def shape (alt : Alt) (name : String) (num : Nat) : Except Nonconformity AltShape :=
  if alt.isEpsilon then .error (.emptyAlternative num)
  else if !alt.beginsWith name then .ok (if alt.endsWith name then .front else .other)
  else if alt.beginsWithArguments then .error (.takesArguments num)
  else if alt.lastCounting = 0 then .error (.loneSelfReference num)
  else if !alt.endsWith name then .ok .suffix
  else if (alt.refsTo name).length = 2 then .ok .binary
  else .ok .ternary

end Alt

/-- Whether some alternative of a rule begins with the rule itself. -/
def RuleDef.isLeftRecursive (rule : RuleDef) : Bool :=
  rule.alts.any (·.beginsWith rule.name)

end GrammarCompiler
