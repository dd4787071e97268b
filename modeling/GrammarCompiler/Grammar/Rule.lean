import GrammarCompiler.Ast.Walk

/-!
# The rule model

What the compiler knows about a rule besides its definition: its number among the rules of its
kind, and for every alternative the references and labels in it.

A rule that was left-recursive keeps a `LeftRecursion` record. It ties the alternatives its
author wrote to those of the rule that took its place: `infos` has one entry for each
alternative as written, and both sides point into it.
-/

namespace GrammarCompiler

/-! ## Alternatives -/

inductive LabelType where
  | rule
  | token
  | ruleList
  | tokenList
deriving Repr, DecidableEq

/-- A label and the first token of the element it stands for. -/
structure LabelDef where
  label : String
  elementToken : Nat
  type : LabelType
deriving Repr, DecidableEq

/-- Values filed under names, in the order the names first came up. -/
abbrev Filed (α : Type) := List (String × List α)

/-- Files a value under a name, behind those already there. -/
def Filed.file {α : Type} (name : String) (value : α) : Filed α → Filed α
  | [] => [(name, [value])]
  | (n, values) :: rest =>
    if n = name then (n, values ++ [value]) :: rest else (n, values) :: Filed.file name value rest

/-- One alternative of a rule, numbered from 1. -/
structure Alternative where
  num : Nat
  /-- The tokens of references to a token name or a literal, by its text. -/
  tokenRefs : Filed Nat := []
  /-- The tokens of references to a rule, by its name. -/
  ruleRefs : Filed Nat := []
  labelDefs : Filed LabelDef := []
  label : Option String := none
deriving Repr, DecidableEq

namespace Alternative

def addLabel (alt : Alternative) (label : LabelDef) : Alternative :=
  { alt with labelDefs := Filed.file label.label label alt.labelDefs }

def labelType (element : Element) (isList : Bool) : LabelType :=
  match element, isList with
  | .ruleRef _, false => .rule
  | .ruleRef _, true => .ruleList
  | _, false => .token
  | _, true => .tokenList

/-- Notes the reference or label that an element is. -/
def note (alt : Alternative) (element : Element) : Alternative :=
  match element with
  | .tokenRef name _ extent =>
    { alt with tokenRefs := Filed.file name extent.start alt.tokenRefs }
  | .quotation q =>
    { alt with tokenRefs := Filed.file q.text q.extent.start alt.tokenRefs }
  | .ruleRef r => { alt with ruleRefs := Filed.file r.name r.extent.start alt.ruleRefs }
  | .labeled isList label _ inner _ =>
    alt.addLabel ⟨label, inner.extent.start, labelType inner isList⟩
  | _ => alt

/-- The alternative with a number, as it is written. -/
def ofAlt (num : Nat) (alt : Alt) : Alternative :=
  alt.nodes.foldl note { num, label := alt.label.map (·.name) }

end Alternative

/-! ## Left recursion -/

/-- What is known about an alternative of a left-recursive rule as it was written. -/
structure AltInfo where
  /-- Number of the alternative, from 1. -/
  alt : Nat
  /-- The text that stands for it in the new rule. -/
  text : String
  /-- The label of the recursive reference that was taken off its front. -/
  refLabel : Option String := none
  label : Option String := none
  isListLabel : Bool := false
  /-- The precedence demanded of its last operand. -/
  nextPrecedence : Nat := 0
  /-- Its place in the primary block or in the operator block of the new rule. -/
  place : Option Nat := none
deriving Repr, DecidableEq

/-- The index of the alternative in the rule as written. -/
def AltInfo.index (info : AltInfo) : Nat :=
  info.alt - 1

/-- The label of a recursive reference that was taken away. Actions may still mention it. -/
structure RefLabel where
  label : String
  labelToken : Nat
  isList : Bool
  altLabel : Option String
deriving Repr, DecidableEq

/-- How a left-recursive rule was taken apart. -/
structure LeftRecursion where
  infos : List AltInfo := []
  /-- The infos of the alternatives that do not begin with the rule itself. -/
  primary : List Nat := []
  /-- The other alternatives: number and info, in the order of the new rule. -/
  operators : List (Nat × Nat) := []
  refLabels : List RefLabel := []
  /-- The alternatives as they were written. -/
  written : List Alt := []
deriving Repr

namespace LeftRecursion

def primaryInfos (lr : LeftRecursion) : List AltInfo :=
  lr.primary.filterMap (lr.infos[·]?)

def operatorInfos (lr : LeftRecursion) : List (Nat × AltInfo) :=
  lr.operators.filterMap fun (alt, info) => (lr.infos[info]?).map (alt, ·)

def operator? (lr : LeftRecursion) (alt : Nat) : Option AltInfo :=
  lr.operatorInfos.lookup alt

def altLabels (lr : LeftRecursion) : List (String × Nat) :=
  (lr.infos.filterMap fun info => info.label.map (·, info.alt)).mergeSort (·.2 ≤ ·.2)

/-- A record from primary alternatives and operator alternatives, in the order they take in
the new rule. -/
def ofInfos (primary operators : List AltInfo) (refLabels : List RefLabel) (written : List Alt) :
    LeftRecursion where
  infos := primary ++ operators
  primary := List.range primary.length
  operators := operators.mapIdx fun i info => (info.alt, primary.length + i)
  refLabels := refLabels
  written := written

end LeftRecursion

/-! ## Rules -/

structure Rule where
  name : String
  /-- Number among the rules of the same kind. -/
  index : Nat
  /-- Place of the definition in the grammar as written. -/
  defIndex : Nat
  isFragment : Bool
  alts : List Alternative
  leftRecursion : Option LeftRecursion
  nameToken : Nat
deriving Repr

namespace Rule

def isLexerRule (rule : Rule) : Bool :=
  isTokenName rule.name

def altLabels (rule : Rule) : List (String × Nat) :=
  match rule.leftRecursion with
  | some lr => lr.altLabels
  | none => rule.alts.filterMap fun alt => alt.label.map (·, alt.num)

def ofDef (definition : RuleDef) (defIndex index : Nat) : Rule where
  name := definition.name
  index := index
  defIndex := defIndex
  isFragment := definition.isFragment
  alts := definition.alts.mapIdx fun i alt => Alternative.ofAlt (i + 1) alt
  leftRecursion := none
  nameToken := definition.nameToken

end Rule

end GrammarCompiler
