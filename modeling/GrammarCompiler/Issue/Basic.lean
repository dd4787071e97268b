import GrammarCompiler.Issue.Kind
import GrammarCompiler.Text.Blank
import GrammarCompiler.Text.Position

/-!
# Issues

An issue is a kind, a place, and the texts that its wording speaks of. The wording is filled in
from the last placeholder to the first, each step over the whole text so far.
-/

namespace GrammarCompiler

open Text (Position)

/-- Something found wrong with a grammar. An issue without a file is not about a grammar. -/
structure Issue where
  kind : IssueKind
  file : Option String
  location : Option Position
  args : List String
deriving Repr, DecidableEq

/-- Replaces every occurrence of `pattern`, from left to right; the first `skip` characters
belong to an occurrence already replaced. -/
def substitute (pattern replacement : List Char) : Nat → List Char → List Char
  | _, [] => []
  | skip + 1, _ :: cs => substitute pattern replacement skip cs
  | 0, c :: cs =>
    if pattern.isPrefixOf (c :: cs) then
      replacement ++ substitute pattern replacement (pattern.length - 1) cs
    else c :: substitute pattern replacement 0 cs

def replaceAll (text pattern replacement : String) : String :=
  String.ofList (substitute pattern.toList replacement.toList 0 text.toList)

namespace Issue

def severity (issue : Issue) : Severity :=
  issue.kind.severity

/-- The argument `n` of an issue, empty if there is none. -/
def arg (issue : Issue) (n : Nat) : String :=
  (issue.args[n]?).getD ""

/-- The message of an issue, without blanks at its end. -/
def message (issue : Issue) : String :=
  let third := replaceAll issue.kind.template "<arg3>" (issue.arg 2)
  let second := replaceAll third "<arg2>" (issue.arg 1)
  Text.trimEnd (replaceAll second "<arg>" (issue.arg 0))

/-- The place of an issue as it stands before the message. -/
def placeText (issue : Issue) : String :=
  match issue.file, issue.location with
  | some file, some p => s!"{file}:{p.line}:{p.column}: "
  | some file, none => s!"{file}: "
  | none, _ => ""

def text (issue : Issue) : String :=
  s!"{issue.severity.name}({issue.kind.code}): " ++ issue.placeText ++ issue.message

end Issue

end GrammarCompiler
