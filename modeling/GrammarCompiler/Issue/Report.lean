import GrammarCompiler.Issue.Basic

/-!
# Reports

The issues found so far, in the order they were found, and the source texts they may point
into.
-/

namespace GrammarCompiler

open Text (Position)

/-- Issues and the texts of the files they are about. -/
structure Report where
  issues : List Issue := []
  sources : List (String × String) := []
deriving Repr, DecidableEq

namespace Report

/-- Nothing found and no texts known. -/
def empty : Report := {}

def addSource (report : Report) (name text : String) : Report :=
  if report.sources.any (·.1 == name) then report
  else { report with sources := report.sources ++ [(name, text)] }

def add (report : Report) (issue : Issue) : Report :=
  { report with issues := report.issues ++ [issue] }

def addAll (report : Report) (issues : List Issue) : Report :=
  { report with issues := report.issues ++ issues }

/-- Number of issues that are more than warnings. -/
def errorCount (report : Report) : Nat :=
  report.issues.countP (·.severity ≠ .warning)

def warningCount (report : Report) : Nat :=
  report.issues.countP (·.severity = .warning)

def has (report : Report) (kind : IssueKind) : Bool :=
  report.issues.any (·.kind = kind)

def ofKind (report : Report) (kind : IssueKind) : List Issue :=
  report.issues.filter (·.kind = kind)

def text (report : Report) : String :=
  String.join (report.issues.map fun issue => issue.text ++ "\n")

end Report

def Issue.cycles (file : String) (location : Option Position) (cycles : List (List String)) :
    Issue :=
  let sets := cycles.map fun names => "[" ++ ", ".intercalate names ++ "]"
  ⟨.leftRecursionCycles, some file, location, [" and ".intercalate sets]⟩

end GrammarCompiler
