import GrammarCompiler.Issue.Report
import GrammarCompiler.Text.Width

/-!
# Excerpts

A report as it is shown to the author: below each issue stands the line it is about, with
carets under the text from the issue's place to the next blank.

A place is turned into a byte offset first and the line and column shown are counted from
there, so a column behind the end of its line points into the next line.
-/

namespace GrammarCompiler

open Text (Position isBlank lineWidths)

namespace Excerpt

/-! ## Places as byte offsets -/

def byteLength (cs : List Char) : Nat :=
  cs.foldl (fun bytes c => bytes + c.utf8Size) 0

/-- The first line of a text with its line feed. -/
def firstLine : List Char → List Char
  | [] => []
  | c :: cs => if c = '\n' then [c] else c :: firstLine cs

def behindFirstLine : List Char → List Char
  | [] => []
  | c :: cs => if c = '\n' then cs else behindFirstLine cs

/-- The byte offset of a column on the line `line`, counted from 1, of the text `cs`. A column
behind the end of its line is the end of the line, a line behind the last is the end of the
text, and so is the line 0. -/
def offsetFrom : Nat → Nat → List Char → Nat
  | 0, _, cs => byteLength cs
  | 1, column, cs => byteLength ((firstLine cs).take column)
  | _ + 2, _, [] => 0
  | line + 2, column, c :: cs =>
    byteLength (firstLine (c :: cs)) + offsetFrom (line + 1) column (behindFirstLine (c :: cs))

def byteOffset (source : String) (place : Position) : Nat :=
  offsetFrom place.line place.column source.toList

/-! ## Labels -/

/-- A part of a source, in bytes. -/
structure Label where
  start : Nat
  stop : Nat
deriving Repr, DecidableEq

/-- The offset of the first blank in the text `behind`, which begins at `start`; the end of the
source if there is none. -/
def nextBlank (source : String) (start : Nat) (behind : List Char) : Nat :=
  match behind.findIdx? isBlank with
  | some n => start + byteLength (behind.take n)
  | none => byteLength source.toList

/-- The label at a place: up to the next blank. There is none if the source cannot be cut at the
place. -/
def Label.at? (source : String) (place : Position) : Option Label := do
  let start := byteOffset source place
  let first ← source.pos? ⟨start⟩
  let stop := nextBlank source start (source.sliceFrom first).copy.toList
  return ⟨start, max start stop⟩

/-! ## The line and its carets -/

/-- The characters that are dropped at the end of a line that is shown. -/
def isLineEnd (c : Char) : Bool :=
  c == '\n' || c == '\r' || c == '\x00'

/-- What is marked in a source. -/
structure Mark where
  /-- Number of the line, from 1. -/
  line : Nat
  /-- Number of characters before the mark on its line. -/
  start : Nat
  /-- Number of characters from the start of the line to the end of the mark. -/
  stop : Nat
  /-- The line without what is dropped at its end. -/
  text : List Char
deriving Repr

/-- The mark of a label; it is at least one character long. There is none if the source cannot be
cut at both ends of the label, or if they are in the wrong order. -/
def Mark.of? (source : String) (label : Label) : Option Mark := do
  let first ← source.pos? ⟨label.start⟩
  let last ← source.pos? ⟨label.stop⟩
  let marked ← source.slice? first last
  let before := (source.sliceTo first).copy.toList
  let behind := (source.sliceFrom first).copy.toList
  let lead := (before.reverse.takeWhile (· != '\n')).reverse
  let line := lead ++ behind.takeWhile (· != '\n')
  return {
    line := before.count '\n' + 1
    start := lead.length
    stop := lead.length + max 1 marked.copy.length
    text := (line.reverse.dropWhile isLineEnd).reverse }

/-- A line as it is shown: a tab becomes blanks up to the next tab stop. -/
def shownLine (cs : List Char) : String :=
  String.join ((lineWidths 0 cs).map fun (c, width) =>
    if c = '\t' then String.ofList (List.replicate width ' ') else c.toString)

/-- The caret line: under each character as many cells as it is wide, carets inside the mark
and blanks before it. One more cell follows the line for marks at its end. -/
def caretLine (mark : Mark) : String :=
  let widths := (lineWidths 0 mark.text).map Prod.snd ++ [1]
  String.join (widths.zipIdx.map fun (width, column) =>
    if mark.start ≤ column && column < mark.stop then String.ofList (List.replicate width '^')
    else if column < mark.stop then String.ofList (List.replicate width ' ')
    else "")

def Mark.render (mark : Mark) (file : String) : String :=
  let number := toString mark.line
  let gutter := String.ofList (List.replicate number.length ' ')
  gutter ++ " ┌─ " ++ s!"{file}:{mark.line}:{mark.start + 1}" ++ "\n" ++
  gutter ++ " │\n" ++
  number ++ " │ " ++ shownLine mark.text ++ "\n" ++
  gutter ++ " │ " ++ caretLine mark ++ "\n"

end Excerpt

namespace Report

/-- The excerpt of an issue, empty if its place or the text of its file is not known. There is none
if the text cannot be cut where the issue is. -/
def excerpt? (report : Report) (issue : Issue) : Option String :=
  match issue.file, issue.location with
  | some file, some place =>
    match report.sources.lookup file with
    | some source => do
      let label ← Excerpt.Label.at? source place
      let mark ← Excerpt.Mark.of? source label
      return mark.render file
    | none => some ""
  | _, _ => some ""

def render? (report : Report) : Option String := do
  let shown ← report.issues.mapM fun issue => do
    let excerpt ← report.excerpt? issue
    return issue.severity.headline ++ "[" ++ issue.kind.name ++ "]: " ++ issue.message ++ "\n" ++
      excerpt ++ "\n"
  return String.join shown

end Report

end GrammarCompiler
