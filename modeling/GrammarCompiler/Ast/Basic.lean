import GrammarCompiler.Token.Table

/-!
# Grammars as written

The parts of a grammar in the shape its author gave them. Every part carries its `Extent`, the
indexes of its first and last token in the token table, so that text can be replayed and
messages placed.

What stands inside an alternative is an `Element`. Rules and alternatives are structures of
their own, since neither can stand where an element can.
-/

namespace GrammarCompiler

open Text (Position)

/-- The first and the last token of a part of a grammar. -/
structure Extent where
  start : Nat
  stop : Nat
deriving Repr, DecidableEq

namespace Extent

/-- A part of one token. -/
def single (index : Nat) : Extent := ⟨index, index⟩

def shift (extent : Extent) (offset : Nat) : Extent :=
  ⟨extent.start + offset, extent.stop + offset⟩

def covers (extent : Extent) (index : Nat) : Bool :=
  extent.start ≤ index && index ≤ extent.stop

end Extent

/-! ## Options -/

/-- Options in angle brackets, in the order they were written. `extent` is missing when there
are none in the source; entries may be added all the same. -/
structure Options where
  entries : List (String × String) := []
  extent : Option Extent := none
deriving Repr, DecidableEq

namespace Options

def none : Options := {}

/-- The value of an option; the first of several counts. -/
def get? (options : Options) (key : String) : Option String :=
  options.entries.lookup key

/-- Gives the first entry with a key a value. -/
def setEntry (key value : String) : List (String × String) → List (String × String)
  | [] => [(key, value)]
  | (k, v) :: rest => if k = key then (k, value) :: rest else (k, v) :: setEntry key value rest

/-- Sets an option, in its old place if it has one and at the end otherwise. -/
def set (options : Options) (key value : String) : Options :=
  { options with entries := setEntry key value options.entries }

def shift (options : Options) (offset : Nat) : Options :=
  { options with extent := options.extent.map (·.shift offset) }

theorem get?_set_self (options : Options) (key value : String) :
    (options.set key value).get? key = some value := by
  unfold set get?
  simp only
  induction options.entries with
  | nil => simp [setEntry]
  | cons entry rest ih =>
    obtain ⟨k, v⟩ := entry
    simp only [setEntry]
    split
    · next h => simp [h]
    · next h =>
      have : (key == k) = false := by simpa using fun h' => h h'.symm
      simp [List.lookup_cons, this, ih]

end Options

/-- The option that names the token an element was copied from. -/
def tokenIndexOption : String := "tokenIndex"

/-- The option that gives the precedence demanded of a reference. -/
def precedenceOption : String := "p"

/-- The option that gives the associativity of an operator. -/
def assocOption : String := "assoc"

/-! ## Elements -/

/-- A piece of embedded code: an action, a predicate or an argument list. -/
structure Snippet where
  text : String
  options : Options
  extent : Extent
deriving Repr, DecidableEq

/-- A character or string literal: the text it stands for, and the text it is written as. -/
structure Quotation where
  value : String
  text : String
  options : Options
  extent : Extent
deriving Repr, DecidableEq

structure RuleRef where
  name : String
  args : Option Snippet
  options : Options
  extent : Extent
deriving Repr, DecidableEq

/-- The label that names an alternative, and the token of its `#`. -/
structure AltLabel where
  name : String
  poundToken : Nat
deriving Repr, DecidableEq

/-- The operators that may stand behind an element. -/
inductive Suffix where
  | optional
  | closure
  | positiveClosure
deriving Repr, DecidableEq

mutual
/-- What an alternative is made of. -/
inductive Element where
  | block (alts : List Alt) (options : Options) (extent : Extent)
  | ruleRef (ref : RuleRef)
  | tokenRef (name : String) (options : Options) (extent : Extent)
  | quotation (literal : Quotation)
  | range (first last : Quotation) (extent : Extent)
  | wildcard (options : Options) (extent : Extent)
  | not (operand : Element) (extent : Extent)
  | set (elements : List Element) (extent : Extent)
  | suffixed (suffix : Suffix) (greedy : Bool) (element : Element) (extent : Extent)
  | labeled (isList : Bool) (label : String) (labelToken : Nat) (element : Element)
      (extent : Extent)
  | action (code : Snippet)
  | predicate (code : Snippet)
  | command (name : String) (arg : Option String) (extent : Extent)
  | epsilon (extent : Extent)
deriving Repr

/-- A sequence of elements. `info` is filled in when the alternative comes from the
elimination of left recursion. -/
structure Alt where
  elements : List Element
  options : Options
  label : Option AltLabel
  extent : Extent
  info : Option Nat
deriving Repr
end

/-! ## Rules and grammars -/

/-- The alternatives of a rule. -/
structure Block where
  alts : List Alt
  extent : Extent
deriving Repr

structure RuleDef where
  name : String
  nameToken : Nat
  isFragment : Bool
  args : Option Snippet
  returns : Option Snippet
  block : Block
  extent : Extent
deriving Repr

/-- Token names begin with an ASCII capital; all other names are names of parser rules. -/
def isTokenName (name : String) : Bool :=
  name.toList.head?.any fun c => 'A' ≤ c && c ≤ 'Z'

namespace RuleDef

def isLexerRule (rule : RuleDef) : Bool :=
  isTokenName rule.name

def alts (rule : RuleDef) : List Alt :=
  rule.block.alts

end RuleDef

/-- What a grammar may hold: token rules, parser rules, or both. -/
inductive GrammarKind where
  | lexer
  | parser
  | combined
deriving Repr, DecidableEq

/-- A grammar as written. -/
structure GrammarDef where
  kind : GrammarKind
  name : String
  options : List (String × String)
  /-- The imported grammars, each with the place where it is named. -/
  imports : List (String × Position)
  tokenDefs : List String
  actions : List (String × String)
  rules : List RuleDef
  tokens : TokenTable
deriving Repr

namespace GrammarDef

def option? (grammar : GrammarDef) (name : String) : Option String :=
  grammar.options.lookup name

def rule? (grammar : GrammarDef) (name : String) : Option RuleDef :=
  grammar.rules.find? (·.name == name)

end GrammarDef

end GrammarCompiler
