import GrammarCompiler.Compile
import GrammarCompiler.Text.Quoted

/-!
# Expectations about outcomes

Tests of grammars state what they expect: success, failure, failure with an issue of some kind
or with some words in a message, or success without warnings. An expectation that is not met
says what happened instead.
-/

namespace GrammarCompiler

/-- How an expectation fails. -/
inductive Unmet (α : Type) where
  | failed (report : Report)
  | succeeded (value : α)
  | kindMissing (kind : IssueKind) (report : Report)
  | messageMissing (part : String) (report : Report)
  | warned (report : Report)

/-- The name of a kind of issues with a capital for each word and nothing between them. -/
def IssueKind.title (kind : IssueKind) : String :=
  String.join ((kind.name.splitOn "_").map fun word =>
    match word.toList with
    | [] => ""
    | c :: cs => String.ofList (c :: cs.map Char.toLower))

def Unmet.heading (what : String) : String :=
  "\n🔴 TEST FAILED (" ++ what ++ "):\n"

/-- What is said about an unmet expectation; nothing for a success that cannot be shown. -/
def Unmet.message? {α : Type} (shown : α → Option String) : Unmet α → Option String
  | failed report =>
    some (heading s!"Expected Success, but got {report.errorCount} error(s)" ++
      report.text ++ "\n")
  | succeeded value =>
    (shown value).map fun text =>
      heading "Expected Failure, but got Success" ++ "Value: " ++ text ++ "\n"
  | kindMissing kind report =>
    some (heading "Error Kind Mismatch" ++ "Expected kind: " ++ kind.title ++
      "\nActual issues:\n" ++ report.text ++ "\n")
  | messageMissing part report =>
    some (heading "Error Message Mismatch" ++ "Expected part: " ++ Text.shownText part ++
      "\nActual issues:\n" ++ report.text ++ "\n")
  | warned report => some (heading "Expected no warnings" ++ report.text ++ "\n")

/-- Whether a text occurs in another. -/
def occursIn (part : List Char) : List Char → Bool
  | [] => part.isEmpty
  | c :: cs => part.isPrefixOf (c :: cs) || occursIn part cs

namespace Expect

variable {α : Type}

def success (outcome : Except Report α) : Except (Unmet α) α :=
  outcome.mapError .failed

def failure (outcome : Except Report α) : Except (Unmet α) Report :=
  match outcome with
  | .ok value => .error (.succeeded value)
  | .error report => .ok report

/-- Expects failure with an issue of a kind. -/
def failureOf (kind : IssueKind) (outcome : Except Report α) : Except (Unmet α) Report := do
  let report ← failure outcome
  if report.has kind then return report
  .error (.kindMissing kind report)

/-- Expects failure with some words in a message. -/
def failureWith (part : String) (outcome : Except Report α) : Except (Unmet α) Unit := do
  let report ← failure outcome
  if report.issues.any fun issue => occursIn part.toList issue.message.toList then return
  .error (.messageMissing part report)

/-- Expects success without warnings. -/
def clean (outcome : Except Report Compilation) : Except (Unmet Compilation) Compilation := do
  let compilation ← success outcome
  if 0 < compilation.report.warningCount then .error (.warned compilation.report)
  return compilation

end Expect

end GrammarCompiler
