import GrammarCompiler.Proofs.Ast.Spelled
import GrammarCompiler.Proofs.TokenTree.Inked

/-!
# Copies of elements

An element that is written out anew is read back as a copy of it (`Element.copied`): the same element
at another place, where every reference and literal names the token it came from and alternatives have
lost their options. Copies are compared without their places (`Element.unplaced`).

`Element.Copied` tells which trees a copy is written as. Unlike `Element.Spelled`, it does not ask
whether the trees can be read: an option whose value is left out loses its value for good, and two
bars grow together once the options between them are gone.
-/

namespace GrammarCompiler

open TokenTree (leaf group)

/-- The extent of what has no place. -/
def Extent.nowhere : Extent := ⟨0, 0⟩

def Options.ofEntries (entries : List (String × String)) : Options := ⟨entries, .none⟩

def Snippet.unplaced (code : Snippet) : Snippet :=
  ⟨code.text, .ofEntries code.options.entries, .nowhere⟩

def Quotation.unplaced (literal : Quotation) : Quotation :=
  ⟨literal.value, literal.text, .ofEntries literal.options.entries, .nowhere⟩

def AltLabel.unplaced (label : AltLabel) : AltLabel :=
  ⟨label.name, 0⟩

mutual
/-- An element without places. Its options are those that `f` tells, those of the alternatives in it
those that `g` tells. -/
def Element.recast (f : Element → List (String × String))
    (g : Options → List (String × String)) : Element → Element
  | .block alts options extent =>
    .block (Alt.allRecast f g alts) (.ofEntries (f (.block alts options extent))) .nowhere
  | .ruleRef ref => .ruleRef
    ⟨ref.name, ref.args.map (·.unplaced), .ofEntries (f (.ruleRef ref)), .nowhere⟩
  | .tokenRef name options extent =>
    .tokenRef name (.ofEntries (f (.tokenRef name options extent))) .nowhere
  | .quotation literal => .quotation
    ⟨literal.value, literal.text, .ofEntries (f (.quotation literal)), .nowhere⟩
  | .range first last _ => .range first.unplaced last.unplaced .nowhere
  | .wildcard options extent => .wildcard (.ofEntries (f (.wildcard options extent))) .nowhere
  | .not operand _ => .not (operand.recast f g) .nowhere
  | .set elements _ => .set (Element.allRecast f g elements) .nowhere
  | .suffixed suffix greedy element _ => .suffixed suffix greedy (element.recast f g) .nowhere
  | .labeled isList label _ element _ => .labeled isList label 0 (element.recast f g) .nowhere
  | .action code => .action code.unplaced
  | .predicate code => .predicate ⟨code.text, .ofEntries (f (.predicate code)), .nowhere⟩
  | .command name arg _ => .command name arg .nowhere
  | .epsilon _ => .epsilon .nowhere

def Element.allRecast (f : Element → List (String × String))
    (g : Options → List (String × String)) : List Element → List Element
  | [] => []
  | e :: es => e.recast f g :: Element.allRecast f g es

def Alt.recast (f : Element → List (String × String))
    (g : Options → List (String × String)) : Alt → Alt
  | ⟨elements, options, label, _, _⟩ =>
    ⟨Element.allRecast f g elements, .ofEntries (g options), label.map (·.unplaced), .nowhere, none⟩

def Alt.allRecast (f : Element → List (String × String))
    (g : Options → List (String × String)) : List Alt → List Alt
  | [] => []
  | a :: as => a.recast f g :: Alt.allRecast f g as
end

/-- The options that an element is written out with: the token it began at, but for a wildcard, and
those of its own that do not name a token. -/
def Element.marks (element : Element) : List (String × String) :=
  (match element with
    | .wildcard .. => []
    | _ => [(tokenIndexOption, toString element.extent.start)]) ++
    element.ownOptions.entries.filter (·.1 != tokenIndexOption)

/-- The options of the copy of an element. -/
def Element.copiedEntries (element : Element) : List (String × String) :=
  if element.isReplayed then element.marks else element.ownOptions.entries

theorem Element.optionsText_eq (element : Element) :
    element.optionsText element.extent.start = markText element.marks := by
  unfold optionsText markText entriesText
  dsimp only
  rw [List.isEmpty_map]
  cases element <;> rfl

def Element.unplaced (e : Element) : Element :=
  e.recast (·.ownOptions.entries) (·.entries)

def Element.allUnplaced (es : List Element) : List Element :=
  Element.allRecast (·.ownOptions.entries) (·.entries) es

def Alt.unplaced (a : Alt) : Alt :=
  a.recast (·.ownOptions.entries) (·.entries)

def Alt.allUnplaced (as : List Alt) : List Alt :=
  Alt.allRecast (·.ownOptions.entries) (·.entries) as

/-- What an element is read back as after it was written out. -/
def Element.copied (e : Element) : Element :=
  e.recast Element.copiedEntries fun _ => []

def Element.allCopied (es : List Element) : List Element :=
  Element.allRecast Element.copiedEntries (fun _ => []) es

def Alt.copied (a : Alt) : Alt :=
  a.recast Element.copiedEntries fun _ => []

def Alt.allCopied (as : List Alt) : List Alt :=
  Alt.allRecast Element.copiedEntries (fun _ => []) as

/-! ## Shapes

Recasting keeps the shape of an element. -/

section Shapes

variable (f : Element → List (String × String)) (g : Options → List (String × String))

@[simp]
theorem Element.isBare_recast (e : Element) : (e.recast f g).isBare = e.isBare := by
  cases e <;> rfl

@[simp]
theorem Element.isUnsuffixed_recast (e : Element) :
    (e.recast f g).isUnsuffixed = e.isUnsuffixed := by
  cases e <;> rfl

@[simp]
theorem Element.isCommand_recast (e : Element) : (e.recast f g).isCommand = e.isCommand := by
  cases e <;> rfl

@[simp]
theorem Element.isNegatable_recast (e : Element) :
    Cursor.isNegatable (e.recast f g) = Cursor.isNegatable e := by
  cases e <;> rfl

theorem Element.isAction_recast : ∀ e : Element, (e.recast f g).isAction = e.isAction
  | .labeled _ _ _ element _ => Element.isAction_recast element
  | .block .. | .ruleRef _ | .tokenRef .. | .quotation _ | .range .. | .wildcard .. | .not ..
  | .set .. | .suffixed .. | .action _ | .predicate _ | .command .. | .epsilon _ => rfl

theorem Element.allRecast_eq_map (es : List Element) :
    Element.allRecast f g es = es.map (·.recast f g) := by
  induction es with
  | nil => rfl
  | cons e es ih => rw [Element.allRecast, ih, List.map_cons]

theorem Element.allUnplaced_append (es fs : List Element) :
    Element.allUnplaced (es ++ fs) = Element.allUnplaced es ++ Element.allUnplaced fs := by
  unfold Element.allUnplaced
  rw [Element.allRecast_eq_map, Element.allRecast_eq_map, Element.allRecast_eq_map, List.map_append]

theorem Alt.allRecast_eq_map (as : List Alt) : Alt.allRecast f g as = as.map (·.recast f g) := by
  induction as with
  | nil => rfl
  | cons a as ih => rw [Alt.allRecast, ih, List.map_cons]

end Shapes

/-! ## Trees of copies -/

inductive ArgumentsCopied : Option Snippet → List TokenTree → Prop
  | none : ArgumentsCopied none []
  | some (opened closed : Text.Position) (body : List TokenTree) :
      ArgumentsCopied (some ⟨TokenTree.print body, .ofEntries [], .nowhere⟩)
        [group .bracket opened closed body]

inductive AltLabelCopied : Option AltLabel → List TokenTree → Prop
  | none : AltLabelCopied none []
  | some (name : String) (joint : Bool) (p q : Text.Position) :
      AltLabelCopied (some ⟨name, 0⟩) [leaf (.punct '#' joint) p, leaf (.ident name) q]

/-- A literal of a copy that is no element of its own. -/
inductive QuotationCopied : Quotation → TokenTree → Prop
  | intro {value text : String} (p : Text.Position) : Literal.value? text = some value →
      value.isEmpty = false →
      QuotationCopied ⟨value, text, .ofEntries [], .nowhere⟩ (leaf (.literal text) p)

/-- The options of a predicate, which are written as they stood in the source. -/
inductive OptionsKept : List (String × String) → List TokenTree → Prop
  | none : OptionsKept [] []
  | some {entries : List (String × String)} {ts : List TokenTree} (joint : Bool)
      (p : Text.Position) : EntriesSpelled entries ts →
      OptionsKept entries (leaf (.punct '<' joint) p :: ts)

/-- Whether an element is a set of symbols, which stands behind a negation only. -/
def Element.isSet : Element → Bool
  | .set .. => true
  | _ => false

/-- The argument of a lexer command in a copy. -/
inductive CommandArgCopied : Option String → List TokenTree → Prop
  | none : CommandArgCopied none []
  | some (arg : String) (opened closed p : Text.Position) :
      CommandArgCopied (some arg) [group .parenthesis opened closed [leaf (.ident arg) p]]

/-- What a name alone is read as. -/
def Element.named (name : String) : Element :=
  if isTokenName name then .tokenRef name (.ofEntries []) .nowhere
  else .ruleRef ⟨name, none, .ofEntries [], .nowhere⟩

def Alt.ofElements (elements : List Element) : Alt :=
  ⟨elements, .ofEntries [], none, .nowhere, none⟩

/-- What the argument of a lexer command is read as without the command: a block. -/
def Element.argument (arg : Option String) : List Element :=
  arg.toList.map fun name => .block [.ofElements [.named name]] (.ofEntries []) .nowhere

/-- What elements are read as whose text begins where the first of them does. The arrow in front of a
lexer command is lost that way, so its name is read as a reference. -/
def Element.signless : List Element → List Element
  | .command name arg _ :: es => .named name :: (Element.argument arg ++ es)
  | es => es

theorem Element.signless_cons {e : Element} (h : e.isCommand = false) (es : List Element) :
    Element.signless (e :: es) = e :: es := by
  cases e with
  | command => cases h
  | _ => rfl

mutual
/-- The trees a copy of an element is written as. -/
inductive Element.Copied : List TokenTree → Element → Prop
  | block {opened closed : Text.Position} {body : List TokenTree} {alts : List Alt} :
      Alt.AllCopied body alts →
      Element.Copied [group .parenthesis opened closed body] (.block alts (.ofEntries []) .nowhere)
  | ruleRef {name : String} {p : Text.Position} {args : Option Snippet}
      {trees mark : List TokenTree} {entries : List (String × String)} :
      isTokenName name = false → isTruth name = false → ArgumentsCopied args trees →
      EntriesPrinted entries mark →
      Element.Copied (leaf (.ident name) p :: (trees ++ leaf (.punct '<' false) .start :: mark))
        (.ruleRef ⟨name, args, .ofEntries entries, .nowhere⟩)
  | tokenRef {name : String} {p : Text.Position} {mark : List TokenTree}
      {entries : List (String × String)} : isTokenName name = true → EntriesPrinted entries mark →
      Element.Copied (leaf (.ident name) p :: leaf (.punct '<' false) .start :: mark)
        (.tokenRef name (.ofEntries entries) .nowhere)
  | quotation {value text : String} {p : Text.Position} {mark : List TokenTree}
      {entries : List (String × String)} : Literal.value? text = some value →
      value.isEmpty = false → EntriesPrinted entries mark →
      Element.Copied (leaf (.literal text) p :: leaf (.punct '<' false) .start :: mark)
        (.quotation ⟨value, text, .ofEntries entries, .nowhere⟩)
  | range {first last : Quotation} {t u : TokenTree} {joint : Bool} {p q : Text.Position} :
      QuotationCopied first t → QuotationCopied last u →
      Element.Copied [t, leaf (.punct '.' true) p, leaf (.punct '.' joint) q, u]
        (.range first last .nowhere)
  | wildcard {joint : Bool} {p : Text.Position} {mark : List TokenTree}
      {entries : List (String × String)} : MarkPrinted entries mark →
      Element.Copied (leaf (.punct '.' joint) p :: mark) (.wildcard (.ofEntries entries) .nowhere)
  | not {joint : Bool} {p : Text.Position} {ts : List TokenTree} {operand : Element} :
      (∃ elements extent, operand = .set elements extent) ∨ Cursor.isNegatable operand = true →
      Element.Copied ts operand →
      Element.Copied (leaf (.punct '~' joint) p :: ts) (.not operand .nowhere)
  | set {opened closed : Text.Position} {body : List TokenTree} {elements : List Element} :
      Element.SetCopied body elements →
      Element.Copied [group .parenthesis opened closed body] (.set elements .nowhere)
  | suffixed {suffix : Suffix} {greedy : Bool} {front back : List TokenTree} {element : Element} :
      element.isUnsuffixed = true → Element.Copied front element →
      SuffixSpelled suffix greedy back → (suffix = .optional → element.isAction = false) →
      Element.Copied (front ++ back) (.suffixed suffix greedy element .nowhere)
  | labeled {isList : Bool} {label : String} {p : Text.Position} {sign ts : List TokenTree}
      {element : Element} : element.isBare = true → SignSpelled isList sign →
      Element.Copied ts element →
      Element.Copied (leaf (.ident label) p :: (sign ++ ts))
        (.labeled isList label 0 element .nowhere)
  | action {opened closed : Text.Position} {body : List TokenTree} :
      Element.Copied [group .brace opened closed body]
        (.action ⟨TokenTree.print body, .ofEntries [], .nowhere⟩)
  | predicate {opened closed : Text.Position} {body : List TokenTree} {joint : Bool}
      {p : Text.Position} {ts : List TokenTree} {entries : List (String × String)} :
      OptionsKept entries ts →
      Element.Copied (group .brace opened closed body :: leaf (.punct '?' joint) p :: ts)
        (.predicate ⟨TokenTree.print body, .ofEntries entries, .nowhere⟩)
  | command {name : String} {p : Text.Position} {arg : Option String} {mark trees : List TokenTree} :
      CommandMarkSpelled mark → CommandArgCopied arg trees →
      Element.Copied (mark ++ leaf (.ident name) p :: trees) (.command name arg .nowhere)

/-- The trees copies of elements are written as, one after another. Lexer commands come last. A name
may stand alone where a command has lost its mark. -/
inductive Element.ListCopied : List TokenTree → List Element → Prop
  | nil : Element.ListCopied [] []
  | cons {front back : List TokenTree} {e : Element} {es : List Element} : e.isSet = false →
      (e.isCommand = true → ∀ other ∈ es, other.isCommand = true) →
      Element.Copied front e → Element.ListCopied back es →
      Element.ListCopied (front ++ back) (e :: es)
  | name {name : String} {p : Text.Position} {back : List TokenTree} {es : List Element} :
      Element.ListCopied back es →
      Element.ListCopied (leaf (.ident name) p :: back) (.named name :: es)

/-- The trees copies of the symbols of a set are written as. -/
inductive Element.SetCopied : List TokenTree → List Element → Prop
  | last {ts : List TokenTree} {e : Element} : Cursor.isNegatable e = true → Element.Copied ts e →
      Element.SetCopied ts [e]
  | cons {front back : List TokenTree} {joint : Bool} {p : Text.Position} {e : Element}
      {es : List Element} : Cursor.isNegatable e = true → Element.Copied front e →
      Element.SetCopied back es →
      Element.SetCopied (front ++ leaf (.punct '|' joint) p :: back) (e :: es)

inductive Alt.Copied : List TokenTree → Alt → Prop
  | empty {back : List TokenTree} {label : Option AltLabel} : AltLabelCopied label back →
      Alt.Copied back ⟨[.epsilon .nowhere], .ofEntries [], label, .nowhere, none⟩
  | written {front back : List TokenTree} {e : Element} {es : List Element}
      {label : Option AltLabel} : Element.ListCopied front (e :: es) → AltLabelCopied label back →
      Alt.Copied (front ++ back) ⟨e :: es, .ofEntries [], label, .nowhere, none⟩

inductive Alt.AllCopied : List TokenTree → List Alt → Prop
  | last {ts : List TokenTree} {a : Alt} : Alt.Copied ts a → Alt.AllCopied ts [a]
  | cons {front back : List TokenTree} {joint : Bool} {p : Text.Position} {a : Alt}
      {as : List Alt} : Alt.Copied front a → Alt.AllCopied back as →
      Alt.AllCopied (front ++ leaf (.punct '|' joint) p :: back) (a :: as)
end

/-- Anything may stand behind an element that is no command. -/
theorem Element.ListCopied.front {front back : List TokenTree} {e : Element} {es : List Element}
    (hset : e.isSet = false) (hcommand : e.isCommand = false) (he : Element.Copied front e)
    (hes : Element.ListCopied back es) : Element.ListCopied (front ++ back) (e :: es) :=
  .cons hset (fun h => absurd (hcommand.symm.trans h) Bool.false_ne_true) he hes

theorem Element.ListCopied.alt {ts : List TokenTree} {es : List Element}
    (h : Element.ListCopied ts es) (hes : es ≠ []) : Alt.Copied ts (Alt.ofElements es) := by
  obtain ⟨e, es, rfl⟩ := List.exists_cons_of_ne_nil hes
  have hwritten := Alt.Copied.written h .none
  rwa [List.append_nil] at hwritten

end GrammarCompiler
