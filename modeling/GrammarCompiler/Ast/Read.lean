import GrammarCompiler.Ast.Cursor
import GrammarCompiler.Ast.Walk
import GrammarCompiler.Text.Decimal

/-!
# Reading grammars

A recursive descent over token trees. `Cursor.alts` reads alternatives up to a semicolon or the
end of the group they stand in; below it stand readers for one alternative, one element with
its label and suffix, and the bare element.

A grammar is its kind and name, sections in any order (options, imports, token names, named
actions), and rules. `GrammarDef.parse` reads a whole grammar; `RuleDef.parse` reads one rule
and adds its tokens to a table that already holds others, which is how rules made up during
compilation join the grammar.
-/

namespace GrammarCompiler

open Text (Position)

namespace Cursor

/-! ## Options -/

/-- Reads the value of an option: the text a character or string literal stands for, any other
literal as it is written, or a word. -/
def optionValue (c : Cursor) : Except SyntaxError (String × c.Shorter) := do
  if c.atLiteral then
    let (token, d) ← c.literal
    .ok (token.value.getD token.text, d)
  else
    let ((text, _), d) ← c.ident
    .ok (text, d)

/-- Reads options behind their opening bracket, up to the closing one, whose index is part of
the result. -/
def optionEntries (c : Cursor) :
    Except SyntaxError ((List (String × String) × Nat) × c.Shorter) := do
  let ((key, _), ⟨d, hd⟩) ← c.ident
  let (value, ⟨e, he⟩) ← show Except SyntaxError (String × c.Shorter) from
    match d.punct? '=' with
    | none => .ok ("", ⟨d, hd⟩)
    | some (_, ⟨d', hd'⟩) => do
      let (value, ⟨e, he⟩) ← d'.optionValue
      .ok (value, ⟨e, by omega⟩)
  match e.punct? ',' with
  | some (_, ⟨f, hf⟩) =>
    let ((entries, stop), ⟨g, hg⟩) ← optionEntries f
    .ok (((key, value) :: entries, stop), ⟨g, by omega⟩)
  | none =>
    let (stop, ⟨f, hf⟩) ← e.punct '>'
    .ok (([(key, value)], stop), ⟨f, by omega⟩)
termination_by c.size

def options (c : Cursor) : Except SyntaxError (Options × c.Rest) := do
  match c.punct? '<' with
  | none => .ok (.none, ⟨c, Nat.le_refl _⟩)
  | some (start, ⟨d, hd⟩) =>
    let ((entries, stop), ⟨e, he⟩) ← d.optionEntries
    .ok (⟨entries, some ⟨start, stop⟩⟩, ⟨e, by omega⟩)

/-- The last token of an element that ends at `stop` unless it has options. -/
def stopOf (options : Options) (stop : Nat) : Nat :=
  (options.extent.map Extent.stop).getD stop

/-! ## Leaves -/

def quotation (c : Cursor) : Except SyntaxError (Quotation × c.Shorter) := do
  let (token, d) ← c.literal
  match token.value with
  | none => .error (c.fail .notQuotation)
  | some value =>
    if value.isEmpty then .error (c.fail .emptyQuotation)
    else .ok (⟨value, token.text, .none, .single token.index⟩, d)

def quotationOrRange (c : Cursor) : Except SyntaxError (Element × c.Shorter) := do
  let (first, ⟨d, hd⟩) ← c.quotation
  match d.pair? '.' '.' with
  | some (_, ⟨e, he⟩) =>
    let (last, ⟨f, hf⟩) ← e.quotation
    .ok (.range first last ⟨first.extent.start, last.extent.start⟩, ⟨f, by omega⟩)
  | none =>
    let (options, ⟨e, he⟩) ← d.options
    let start := first.extent.start
    .ok (.quotation { first with options, extent := ⟨start, stopOf options start⟩ },
      ⟨e, by omega⟩)

/-- Reads a reference to a token or a rule. Only a rule takes arguments. -/
def reference (c : Cursor) : Except SyntaxError (Element × c.Shorter) := do
  let ((name, index), ⟨d, hd⟩) ← c.ident
  if isTokenName name then
    let (options, ⟨e, he⟩) ← d.options
    .ok (.tokenRef name options ⟨index, stopOf options index⟩, ⟨e, by omega⟩)
  else if d.atGroup .bracket then
    let (args, ⟨e, he⟩) ← d.arguments
    let (options, ⟨f, hf⟩) ← e.options
    let extent : Extent := ⟨index, stopOf options args.extent.stop⟩
    .ok (.ruleRef ⟨name, some args, options, extent⟩, ⟨f, by omega⟩)
  else
    let (options, ⟨e, he⟩) ← d.options
    .ok (.ruleRef ⟨name, none, options, ⟨index, stopOf options index⟩⟩, ⟨e, by omega⟩)

/-- Reads an action, or a predicate if a question mark follows. -/
def embedded (c : Cursor) : Except SyntaxError (Element × c.Shorter) := do
  let ((index, text), ⟨d, hd⟩) ← c.opaqueGroup .brace .curlyBraces
  match d.punct? '?' with
  | some (mark, ⟨e, he⟩) =>
    let (options, ⟨f, hf⟩) ← e.options
    .ok (.predicate ⟨text, options, ⟨index, stopOf options mark⟩⟩, ⟨f, by omega⟩)
  | none => .ok (.action ⟨text, .none, .single index⟩, ⟨d, hd⟩)

def wildcard (c : Cursor) : Except SyntaxError (Element × c.Shorter) := do
  let (index, ⟨d, hd⟩) ← c.punct '.'
  let (options, ⟨e, he⟩) ← d.options
  .ok (.wildcard options ⟨index, stopOf options index⟩, ⟨e, by omega⟩)

/-! ## Parts of an alternative -/

def atAltEnd (c : Cursor) : Bool :=
  c.trees.isEmpty || c.atPunct "|" || c.atPunct ";" || c.atPunct "#" || c.atPunct "->"

/-- Reads the argument of a lexer command; the result holds the index of the closing
parenthesis. Anything behind the argument is remembered as left over. -/
def commandArg (c : Cursor) : Except SyntaxError ((Option String × Option Nat) × c.Rest) := do
  match h : c.trees with
  | .group .parenthesis opened closed body :: rest =>
    let ((arg, _), ⟨d, _⟩) ← (c.inside body closed).ident
    let width := (TokenTree.group .parenthesis opened closed body).width
    let left := d.trees.head?.map TokenTree.position
    .ok ((some arg, some (c.index + width - 1)),
      ⟨{ c.behind rest width with stray := c.stray.or left }, by
        have := size_behind_lt h width
        simp only [size, behind] at this ⊢
        omega⟩)
  | _ => .ok ((none, none), ⟨c, Nat.le_refl _⟩)

/-- Reads lexer commands behind their arrow. -/
def commands (c : Cursor) : Except SyntaxError (List Element × c.Shorter) := do
  let ((name, index), ⟨d, hd⟩) ← c.ident
  let ((arg, close), ⟨e, he⟩) ← d.commandArg
  let command := Element.command name arg ⟨index, close.getD index⟩
  match e.punct? ',' with
  | some (_, ⟨f, hf⟩) =>
    let (rest, ⟨g, hg⟩) ← commands f
    .ok (command :: rest, ⟨g, by omega⟩)
  | none => .ok ([command], ⟨e, by omega⟩)
termination_by c.size

/-- Reads lexer commands with their arrow, if there are any. -/
def commandList (c : Cursor) : Except SyntaxError (List Element × c.Rest) := do
  match c.pair? '-' '>' with
  | none => .ok ([], ⟨c, Nat.le_refl _⟩)
  | some (_, ⟨d, hd⟩) =>
    let (commands, ⟨e, he⟩) ← d.commands
    .ok (commands, ⟨e, by omega⟩)

/-- Reads the label of an alternative, if there is one; the result holds the index of its name
too. -/
def altLabel (c : Cursor) : Except SyntaxError (Option (AltLabel × Nat) × c.Rest) := do
  match c.punct? '#' with
  | none => .ok (none, ⟨c, Nat.le_refl _⟩)
  | some (pound, ⟨d, hd⟩) =>
    let ((name, index), ⟨e, he⟩) ← d.ident
    .ok (some (⟨name, pound⟩, index), ⟨e, by omega⟩)

/-- Reads the suffix of an element, if there is one, and makes it part of the element. A
question mark behind the suffix makes it reluctant. -/
def suffixed (c : Cursor) (element : Element) : Except SyntaxError (Element × c.Rest) :=
  let found : Option (Suffix × Nat × c.Shorter) :=
    if c.atPunct "?" then (c.punct? '?').map fun (i, d) => (.optional, i, d)
    else if c.atPunct "*" && !c.atPunct "*=" then
      (c.punct? '*').map fun (i, d) => (.closure, i, d)
    else if c.atPunct "+" && !c.atPunct "+=" then
      (c.punct? '+').map fun (i, d) => (.positiveClosure, i, d)
    else none
  match found with
  | none => .ok (element, ⟨c, Nat.le_refl _⟩)
  | some (suffix, index, ⟨d, hd⟩) =>
    let start := element.extent.start
    match d.punct? '?' with
    | some (mark, ⟨e, he⟩) =>
      .ok (.suffixed suffix false element ⟨start, mark⟩, ⟨e, by omega⟩)
    | none => .ok (.suffixed suffix true element ⟨start, index⟩, ⟨d, by omega⟩)

def atLabel (c : Cursor) : Bool :=
  let next := c.second
  c.atIdent && (next.atPunct "=" || next.atPunct "+=") && !next.atPunct "=>"

structure ElementLabel where
  name : String
  index : Nat
  isList : Bool
deriving Repr

/-- Reads a label with its sign, if an element begins with one. -/
def elementLabel (c : Cursor) : Except SyntaxError (Option ElementLabel × c.Rest) := do
  if c.atLabel then
    let ((name, index), ⟨d, hd⟩) ← c.ident
    match d.pair? '+' '=' with
    | some (_, ⟨e, he⟩) => .ok (some ⟨name, index, true⟩, ⟨e, by omega⟩)
    | none =>
      let (_, ⟨e, he⟩) ← d.punct '='
      .ok (some ⟨name, index, false⟩, ⟨e, by omega⟩)
  else .ok (none, ⟨c, Nat.le_refl _⟩)

/-- Puts a label in front of an element. -/
def ElementLabel.onto (label : ElementLabel) (element : Element) : Element :=
  .labeled label.isList label.name label.index element ⟨label.index, element.extent.stop⟩

/-- An alternative from its parts. One in which nothing is written is anchored at its label, or
else at the token `next` behind it. -/
def altOf (next : Nat) (options : Options) (elements : List Element)
    (label : Option (AltLabel × Nat)) : Alt :=
  let start := (options.extent.map Extent.start).or (elements.head?.map (·.extent.start))
  let stop := ((label.map Prod.snd).or (elements.getLast?.map (·.extent.stop))).or
    (options.extent.map Extent.stop)
  let extent := match start, stop with
    | some start, some stop => ⟨start, stop⟩
    | _, _ => .single ((label.map (·.1.poundToken)).getD next)
  { elements := if elements.isEmpty then [.epsilon extent] else elements
    options, label := label.map Prod.fst, extent, info := none }

/-- Whether an element may be negated. -/
def isNegatable : Element → Bool
  | .tokenRef .. | .quotation .. | .range .. => true
  | _ => false

/-! ## The descent

Each reader hands over to the next one at the same place or further on, and only a block in
parentheses leads back to the first; what is inside it is smaller than the group. -/

mutual
def alts (c : Cursor) : Except SyntaxError (List Alt × c.Rest) := do
  let (alt, ⟨d, hd⟩) ← c.alt
  match if d.atPunct "||" then none else d.punct? '|' with
  | some (_, ⟨e, he⟩) =>
    let (rest, ⟨f, hf⟩) ← e.alts
    .ok (alt :: rest, ⟨f, by omega⟩)
  | none => .ok ([alt], ⟨d, hd⟩)
termination_by 5 * c.size + 4

def alt (c : Cursor) : Except SyntaxError (Alt × c.Rest) := do
  let (options, ⟨d, hd⟩) ← c.options
  let (elements, ⟨e, he⟩) ← d.elements
  let (commands, ⟨f, hf⟩) ← e.commandList
  let (label, ⟨g, hg⟩) ← f.altLabel
  .ok (altOf c.index options (elements ++ commands) label, ⟨g, by omega⟩)
termination_by 5 * c.size + 3

def elements (c : Cursor) : Except SyntaxError (List Element × c.Rest) := do
  if c.atAltEnd then .ok ([], ⟨c, Nat.le_refl _⟩)
  else
    let (element, ⟨d, hd⟩) ← c.element
    let (rest, ⟨e, he⟩) ← d.elements
    .ok (element :: rest, ⟨e, by omega⟩)
termination_by 5 * c.size + 2

def element (c : Cursor) : Except SyntaxError (Element × c.Shorter) := do
  let (label, ⟨d, hd⟩) ← c.elementLabel
  let (bare, ⟨e, he⟩) ← d.atom
  let labeled := match label with
    | some label => label.onto bare
    | none => bare
  let (element, ⟨f, hf⟩) ← e.suffixed labeled
  .ok (element, ⟨f, by omega⟩)
termination_by 5 * c.size + 1

def atom (c : Cursor) : Except SyntaxError (Element × c.Shorter) := do
  match h : c.trees with
  | .group .parenthesis opened closed body :: rest =>
    have := size_inside_lt h
    let (alts, ⟨d, _⟩) ← (c.inside body closed).alts
    if !d.trees.isEmpty then .error (d.expected .blockEnd)
    else
      let width := (TokenTree.group .parenthesis opened closed body).width
      .ok (.block alts .none ⟨c.index, c.index + width - 1⟩,
        ⟨{ c.behind rest width with stray := d.stray }, size_behind_lt h width⟩)
  | .group .bracket _ _ _ :: _ => .error (c.expected .noArguments)
  | .group .brace _ _ _ :: _ => c.embedded
  | _ =>
    match c.punct? '~' with
    | some (tilde, ⟨d, hd⟩) =>
      let (operand, ⟨e, he⟩) ← d.setOperand
      .ok (.not operand ⟨tilde, operand.extent.stop⟩, ⟨e, by omega⟩)
    | none =>
      if c.atPunct "." && !c.atPunct ".." then c.wildcard
      else if c.atLiteral then c.quotationOrRange
      else c.reference
termination_by 5 * c.size

/-- Reads the operand of a negation: a symbol, or a set of symbols in parentheses. -/
def setOperand (c : Cursor) : Except SyntaxError (Element × c.Shorter) := do
  match h : c.trees with
  | .group .parenthesis opened closed body :: rest =>
    have := size_inside_lt h
    let (elements, ⟨d, _⟩) ← (c.inside body closed).setElements
    if !d.trees.isEmpty then .error (d.expected .setEnd)
    else
      let width := (TokenTree.group .parenthesis opened closed body).width
      .ok (.set elements ⟨c.index, c.index + width - 1⟩,
        ⟨{ c.behind rest width with stray := d.stray }, size_behind_lt h width⟩)
  | _ => c.setElement
termination_by 5 * c.size + 2

/-- Reads the symbols of a set with bars between them. -/
def setElements (c : Cursor) : Except SyntaxError (List Element × c.Shorter) := do
  let (element, ⟨d, hd⟩) ← c.setElement
  match d.punct? '|' with
  | some (_, ⟨e, he⟩) =>
    let (rest, ⟨f, hf⟩) ← e.setElements
    .ok (element :: rest, ⟨f, by omega⟩)
  | none => .ok ([element], ⟨d, hd⟩)
termination_by 5 * c.size + 2

def setElement (c : Cursor) : Except SyntaxError (Element × c.Shorter) := do
  let (element, d) ← c.atom
  if isNegatable element then .ok (element, d) else .error (c.fail .notNegatable)
termination_by 5 * c.size + 1
end

/-! ## Sections -/

/-- Reads options of a grammar or a rule up to the end of their braces. -/
def settings (c : Cursor) : Except SyntaxError (List (String × String)) := do
  if c.trees.isEmpty then .ok []
  else
    let ((name, _), ⟨d, _⟩) ← c.ident
    let (_, ⟨e, _⟩) ← d.punct '='
    let (value, ⟨f, _⟩) ← e.optionValue
    let (_, ⟨g, _⟩) ← f.punct ';'
    let rest ← settings g
    .ok ((name, value) :: rest)
termination_by c.size

/-- Reads token names up to the end of their braces; commas between them may be left out. -/
def tokenNames (c : Cursor) : Except SyntaxError (List String) := do
  if c.trees.isEmpty then .ok []
  else
    let ((name, _), ⟨d, _⟩) ← c.ident
    match d.punct? ',' with
    | some (_, ⟨e, _⟩) => .ok (name :: (← tokenNames e))
    | none => .ok (name :: (← tokenNames d))
termination_by c.size

/-- Reads the names of imported grammars up to the semicolon, each with its place. -/
def importNames (c : Cursor) : Except SyntaxError (List (String × Position) × c.Shorter) := do
  let ((name, _), ⟨d, hd⟩) ← c.ident
  match d.punct? ',' with
  | some (_, ⟨e, he⟩) =>
    let (rest, ⟨f, hf⟩) ← importNames e
    .ok ((name, c.position) :: rest, ⟨f, by omega⟩)
  | none =>
    let (_, ⟨e, he⟩) ← d.punct ';'
    .ok ([(name, c.position)], ⟨e, by omega⟩)
termination_by c.size

/-- Reads a word and a group in braces, whose body is read by `body`. -/
def braced {α : Type} (c : Cursor) (keyword : String)
    (body : Cursor → Except SyntaxError α) : Except SyntaxError (α × c.Shorter) := do
  let (_, ⟨d, hd⟩) ← c.word keyword
  match h : d.trees with
  | .group .brace _ closed trees :: rest =>
    let value ← body (d.inside trees closed)
    .ok (value, ⟨d.behind rest 1, by have := size_behind_lt h 1; omega⟩)
  | _ => .error (d.expected .curlyBraces)

/-- Whether a section of braces comes next. -/
def atBraced (c : Cursor) (keyword : String) : Bool :=
  c.atWord keyword && c.second.atGroup .brace

/-- What stands between the name of a grammar and its rules. -/
structure Sections where
  options : List (String × String) := []
  imports : List (String × Position) := []
  tokenDefs : List String := []
  actions : List (String × String) := []
deriving Repr

/-- Reads sections as long as there are any. -/
def sections (c : Cursor) : Except SyntaxError (Sections × c.Rest) := do
  if c.atBraced "options" then
    let (options, ⟨d, hd⟩) ← c.braced "options" settings
    let (rest, ⟨e, he⟩) ← sections d
    .ok ({ rest with options := options ++ rest.options }, ⟨e, by omega⟩)
  else if c.atWord "import" then
    let (_, ⟨d, hd⟩) ← c.word "import"
    let (imports, ⟨e, he⟩) ← d.importNames
    let (rest, ⟨f, hf⟩) ← sections e
    .ok ({ rest with imports := imports ++ rest.imports }, ⟨f, by omega⟩)
  else if c.atBraced "tokens" then
    let (tokenDefs, ⟨d, hd⟩) ← c.braced "tokens" tokenNames
    let (rest, ⟨e, he⟩) ← sections d
    .ok ({ rest with tokenDefs := tokenDefs ++ rest.tokenDefs }, ⟨e, by omega⟩)
  else
    match c.punct? '@' with
    | some (_, ⟨d, hd⟩) =>
      let ((name, _), ⟨e, he⟩) ← d.ident
      let ((_, text), ⟨f, hf⟩) ← e.opaqueGroup .brace .curlyBraces
      let (rest, ⟨g, hg⟩) ← sections f
      .ok ({ rest with actions := (name, text) :: rest.actions }, ⟨g, by omega⟩)
    | none => .ok ({}, ⟨c, Nat.le_refl _⟩)
termination_by c.size

/-! ## Rules -/

/-- Reads a word and the argument list behind it, if the word comes next. -/
def clause (c : Cursor) (keyword : String) : Except SyntaxError (Option Snippet × c.Rest) := do
  if c.atWord keyword then
    let (_, ⟨d, hd⟩) ← c.word keyword
    let (code, ⟨e, he⟩) ← d.arguments
    .ok (some code, ⟨e, by omega⟩)
  else .ok (none, ⟨c, Nat.le_refl _⟩)

/-- Reads the options of a rule, if there are any. They have no effect. -/
def ruleSettings (c : Cursor) : Except SyntaxError (Unit × c.Rest) := do
  if c.atBraced "options" then
    let (_, ⟨d, hd⟩) ← c.braced "options" settings
    .ok ((), ⟨d, by omega⟩)
  else .ok ((), ⟨c, Nat.le_refl _⟩)

/-- Reads the word that marks a helper rule, if there is one. It is a rule's own name unless
another name follows. -/
def fragmentMark (c : Cursor) : Except SyntaxError (Bool × c.Rest) := do
  if c.atWord "fragment" && c.second.atIdent then
    let (_, ⟨d, hd⟩) ← c.word "fragment"
    .ok (true, ⟨d, by omega⟩)
  else .ok (false, ⟨c, Nat.le_refl _⟩)

def ruleArguments (c : Cursor) : Except SyntaxError (Option Snippet × c.Rest) := do
  if c.atGroup .bracket then
    let (code, ⟨d, hd⟩) ← c.arguments
    .ok (some code, ⟨d, by omega⟩)
  else .ok (none, ⟨c, Nat.le_refl _⟩)

def rule (c : Cursor) : Except SyntaxError (RuleDef × c.Shorter) := do
  let (isFragment, ⟨d, hd⟩) ← c.fragmentMark
  let ((name, nameToken), ⟨e, he⟩) ← d.ident
  let (args, ⟨f, hf⟩) ← e.ruleArguments
  let (returns, ⟨g, hg⟩) ← f.clause "returns"
  let (_, ⟨i, hi⟩) ← g.clause "locals"
  let (_, ⟨j, hj⟩) ← i.ruleSettings
  let (colon, ⟨k, hk⟩) ← j.punct ':'
  let (alts, ⟨l, hl⟩) ← k.alts
  let (semicolon, ⟨m, hm⟩) ← l.punct ';'
  let block : Block :=
    { alts
      extent := ⟨(alts.head?.map (·.extent.start)).getD colon,
        (alts.getLast?.map (·.extent.stop)).getD colon⟩ }
  .ok ({ name, nameToken, isFragment, args, returns, block, extent := ⟨c.index, semicolon⟩ },
    ⟨m, by omega⟩)

/-- Reads rules up to the end; the result holds the cursor there. -/
def rules (c : Cursor) : Except SyntaxError (List RuleDef × Cursor) := do
  if c.trees.isEmpty then .ok ([], c)
  else
    let (rule, ⟨d, _⟩) ← c.rule
    let (rest, e) ← rules d
    .ok (rule :: rest, e)
termination_by c.size

/-! ## Grammars -/

def grammarKind (c : Cursor) : Except SyntaxError (GrammarKind × c.Rest) := do
  if c.atWord "lexer" then
    let (_, ⟨d, hd⟩) ← c.word "lexer"
    .ok (.lexer, ⟨d, by omega⟩)
  else if c.atWord "parser" then
    let (_, ⟨d, hd⟩) ← c.word "parser"
    .ok (.parser, ⟨d, by omega⟩)
  else .ok (.combined, ⟨c, Nat.le_refl _⟩)

/-- Succeeds when nothing was left over on the way, and nothing is left over at the end. -/
def finish (c : Cursor) : Except SyntaxError Unit :=
  match c.stray, c.trees with
  | some position, _ => .error ⟨.leftOver true, position⟩
  | none, [] => .ok ()
  | none, _ :: _ => .error (c.fail (.leftOver false))

/-- Reads a whole grammar whose tokens are those of `table`. -/
def grammar (c : Cursor) (table : TokenTable) : Except SyntaxError GrammarDef := do
  let (kind, ⟨d, _⟩) ← c.grammarKind
  let (_, ⟨e, _⟩) ← d.word "grammar"
  let ((name, _), ⟨f, _⟩) ← e.ident
  let (_, ⟨g, _⟩) ← f.punct ';'
  let (sections, ⟨i, _⟩) ← g.sections
  let (rules, j) ← i.rules
  j.finish
  .ok { kind, name, options := sections.options, imports := sections.imports,
        tokenDefs := sections.tokenDefs, actions := sections.actions, rules, tokens := table }

/-- The cursor at the beginning of a source whose first token gets the index `index`. Errors at
the end of a source are reported at its beginning. -/
def atStart (trees : List TokenTree) (index : Nat) : Cursor :=
  { trees, index, ending := Position.start, stray := none }

end Cursor

/-- The token trees of a source. -/
def readTrees (source : String) : Except SyntaxError (List TokenTree) :=
  (TokenTree.parse source).mapError fun position => ⟨.unreadable, position⟩

/-- Reads a whole grammar. The name of the file is kept with its tokens. -/
def GrammarDef.parse (file source : String) : Except SyntaxError GrammarDef := do
  let trees ← readTrees source
  (Cursor.atStart trees 0).grammar (TokenTable.empty.addSource file trees)

namespace RuleDef

/-- The tokens of a rule that were copied from others, each with the token it came from. -/
def copiedTokens (rule : RuleDef) : List (Nat × Nat) :=
  rule.nodes.filterMap fun node => do
    let origin ← (node.option? tokenIndexOption).bind Text.index?
    some (node.extent.start, origin)

/-- Shows copied tokens at the places of those they came from. -/
def relocateCopies (rule : RuleDef) (table : TokenTable) : TokenTable :=
  rule.copiedTokens.foldl (fun table (index, origin) => table.relocate index origin) table

/-- Reads one rule and adds its tokens to a table. The tokens stay in the table even when they
are not a rule, but not when the source has no token trees. -/
def parse (name source : String) (table : TokenTable) :
    Except SyntaxError RuleDef × TokenTable :=
  match readTrees source with
  | .error error => (.error error, table)
  | .ok trees =>
    let added := table.addSource name trees
    match (Cursor.atStart trees table.size).rule with
    | .error error => (.error error, added)
    | .ok (rule, ⟨behind, _⟩) =>
      match behind.finish with
      | .error error => (.error error, added)
      | .ok _ => (.ok rule, rule.relocateCopies added)

end RuleDef

end GrammarCompiler
