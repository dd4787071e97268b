import GrammarCompiler.Analysis
import GrammarCompiler.Grammar.Import
import GrammarCompiler.Model.Build
import GrammarCompiler.Model.Code
import GrammarCompiler.Recursion.Elimination

/-!
# Compiling a grammar

From the text of a grammar to a parser: reading and imports, rules and their checks, the
elimination of left recursion, networks, their analysis, and the model. Errors end the
compilation at the next of these borders; warnings do not.
-/

namespace GrammarCompiler

/-- What comes of a grammar without errors. -/
structure Compilation where
  grammar : Grammar
  vocabulary : Vocabulary
  /-- Missing if there are no token rules. -/
  lexer : Option Network
  /-- Missing for a grammar of tokens only. -/
  parser : Option Network
  /-- The lookahead of each decision of the parser. -/
  look : List IntervalSet.Look
  /-- The rules whose left recursion was eliminated. -/
  eliminated : List String
  model : Option ParserModel
  /-- Warnings only. -/
  report : Report

/-- Succeeds if a report holds no errors. -/
def Report.pass (report : Report) : Except Report Unit :=
  if 0 < report.errorCount then .error report else .ok ()

def readAll (library : Library) (file source : String) : Except Report (Grammar × Report) := do
  match Report.empty.load file source with
  | (none, report) => .error report
  | (some definition, report) =>
    let (grammar, report) := (Grammar.ofDef file definition).integrate library report
    report.pass
    return (grammar, report)

def collectAll (grammar : Grammar) (report : Report) : Except Report (Grammar × Report) := do
  let (grammar, issues) := grammar.collect
  let report := (report.addAll issues).addAll (grammar.check true)
  report.pass
  return (grammar, report)

def compile (options : CompileOptions) (library : Library) (file source : String) :
    Except Report Compilation := do
  let (grammar, report) ← readAll library file source
  let (grammar, report) ← collectAll grammar report
  let (grammar, issues, eliminated) := grammar.eliminate .standard
  let report := report.addAll issues
  report.pass
  let (vocabulary, issues) := Vocabulary.ofGrammar grammar
  let report := report.addAll issues
  let lexer :=
    if grammar.lexerRules.isEmpty then none
    else some (Network.ofGrammar grammar vocabulary .lexer)
  let parser :=
    if grammar.kind = .lexer then none
    else some (Network.ofGrammar grammar vocabulary .parser)
  let lexerFindings := lexer.map grammar.analyzeNetwork
  let parserFindings := parser.map grammar.analyzeNetwork
  let found (findings : Option Findings) : List Issue := (findings.map (·.issues)).getD []
  let report := (report.addAll (found lexerFindings)).addAll (found parserFindings)
  report.pass
  let look := (parserFindings.map (·.look)).getD []
  let model := parser.map fun network =>
    (ParserModel.Source.mk grammar network vocabulary look options).model
  return { grammar, vocabulary, lexer, parser, look, eliminated, model, report }

/-- The code of a compilation; a grammar of tokens only has none. -/
def Compilation.code (compilation : Compilation) : Except BadName Code :=
  match compilation.model with
  | some model => model.code
  | none => .ok []

end GrammarCompiler
