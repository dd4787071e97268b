import GrammarCompiler.Ast.Read
import GrammarCompiler.Ast.Shift
import GrammarCompiler.Grammar.Basic

/-!
# Imports

A grammar may name others whose rules it wants to have. They are looked up in a `Library`.
The importing grammar wins: a rule is taken in only if there is none of its name yet, and only
if the kind of the grammar allows it.
-/

namespace GrammarCompiler

/-- Grammar texts that may be imported, the latest first. -/
structure Library where
  entries : List (String × String) := []
deriving Repr, DecidableEq

namespace Library

def empty : Library := {}

/-- Adds a grammar; it takes the place of one of the same name. -/
def register (library : Library) (name source : String) : Library :=
  ⟨(name, source) :: library.entries⟩

def source? (library : Library) (name : String) : Option String :=
  library.entries.lookup name

theorem source?_register (library : Library) (name source other : String) :
    (library.register name source).source? other =
      if other = name then some source else library.source? other := by
  unfold register source?
  by_cases h : other = name
  · simp [h]
  · have : (other == name) = false := by simpa using h
    simp [List.lookup_cons, this, h]

end Library

def SyntaxError.issue (error : SyntaxError) (file : String) : Issue :=
  ⟨.syntaxError, some file, some error.position, [error.message]⟩

/-- Reads a grammar; its text is kept in the report, and so is a syntax error in it. -/
def Report.load (report : Report) (file source : String) : Option GrammarDef × Report :=
  let report := report.addSource file source
  match GrammarDef.parse file source with
  | .ok grammar => (some grammar, report)
  | .error error => (none, report.add (error.issue file))

namespace Grammar

/-- Takes in a rule whose tokens have moved by `offset`. -/
def takeRule (offset : Nat) (source : GrammarDef) (rule : RuleDef) : GrammarDef :=
  if source.kind.allows rule && (source.rule? rule.name).isNone then
    { source with rules := source.rules ++ [rule.shift offset] }
  else source

def takeToken (source : GrammarDef) (token : String) : GrammarDef :=
  if source.tokenDefs.contains token then source
  else { source with tokenDefs := source.tokenDefs ++ [token] }

/-- Takes in the tokens, rules and token names of another grammar. -/
def takeIn (source other : GrammarDef) : GrammarDef :=
  let (tokens, offset) := source.tokens.absorb other.tokens
  let source := other.rules.foldl (takeRule offset) { source with tokens }
  other.tokenDefs.foldl takeToken source

def importOne (library : Library) (state : Grammar × Report)
    (wanted : String × Text.Position) : Grammar × Report :=
  let (grammar, report) := state
  let (name, place) := wanted
  match library.source? name with
  | none =>
    (grammar, report.add ⟨.unknownImportedGrammar, some grammar.file, some place, [name]⟩)
  | some source =>
    match report.load (name ++ ".g") source with
    | (none, report) => (grammar, report)
    | (some other, report) =>
      ({ grammar with
          source := takeIn grammar.source other
          imported := grammar.imported ++ [name] }, report)

/-- Imports all grammars that a grammar names. -/
def integrate (library : Library) (grammar : Grammar) (report : Report) : Grammar × Report :=
  grammar.source.imports.foldl (importOne library) (grammar, report)

/-- Reads a grammar, imports what it names and collects its rules. There is no grammar when
its text cannot be read; everything else that is wrong only shows in the report. -/
def gather (library : Library) (file source : String) : Option Grammar × Report :=
  match Report.empty.load file source with
  | (none, report) => (none, report)
  | (some definition, report) =>
    let (grammar, report) := (Grammar.ofDef file definition).integrate library report
    let (grammar, issues) := grammar.collect
    (some grammar, report.addAll issues)

end Grammar

end GrammarCompiler
