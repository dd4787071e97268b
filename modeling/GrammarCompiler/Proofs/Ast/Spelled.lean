import GrammarCompiler.Ast.Read

/-!
# Spelling

Which trees a part of a grammar is read from (`Element.Spelled`, `Alt.Spelled`). The relation goes
along the part and not along the trees, and says nothing of what comes before or behind them. It
ties every extent to the index of the first token, so that a part is found again in the token
table.
-/

namespace GrammarCompiler

open TokenTree (leaf group widths)

/-! ## Widths -/

theorem TokenTree.width_pos (t : TokenTree) : 0 < t.width := by
  cases t with
  | leaf => simp [width]
  | group d => cases d <;> simp [width]

@[simp]
theorem TokenTree.widths_nil : widths [] = 0 := by
  rw [widths]

@[simp]
theorem TokenTree.widths_cons (t : TokenTree) (ts : List TokenTree) :
    widths (t :: ts) = t.width + widths ts := by
  rw [widths]

@[simp]
theorem TokenTree.widths_append (ts us : List TokenTree) :
    widths (ts ++ us) = widths ts + widths us := by
  induction ts with
  | nil => simp
  | cons t ts ih => simp [ih, Nat.add_assoc]

@[simp]
theorem TokenTree.width_leaf (token : Leaf) (p : Text.Position) : (leaf token p).width = 1 := by
  rw [width]

@[simp]
theorem TokenTree.width_parenthesis (opened closed : Text.Position) (body : List TokenTree) :
    (group .parenthesis opened closed body).width = widths body + 2 := by
  rw [width]

@[simp]
theorem TokenTree.width_brace (opened closed : Text.Position) (body : List TokenTree) :
    (group .brace opened closed body).width = 1 := by
  rw [width]

@[simp]
theorem TokenTree.width_bracket (opened closed : Text.Position) (body : List TokenTree) :
    (group .bracket opened closed body).width = 1 := by
  rw [width]

/-- The extent of trees whose first token is `i`. -/
def Extent.across (i : Nat) (ts : List TokenTree) : Extent :=
  ⟨i, i + widths ts - 1⟩

/-! ## Options -/

inductive ValueSpelled : String → List TokenTree → Prop
  | literal (text : String) (p : Text.Position) :
      ValueSpelled ((Literal.value? text).getD text) [leaf (.literal text) p]
  | word (text : String) (p : Text.Position) : ValueSpelled text [leaf (.ident text) p]
  | negative {text : String} (joint : Bool) (p q : Text.Position) : Literal.isNumber text = true →
      ValueSpelled ("- " ++ text) [leaf (.punct '-' joint) p, leaf (.literal text) q]

/-- What stands behind the key of an option. -/
inductive AssignmentSpelled : String → List TokenTree → Prop
  | nothing : AssignmentSpelled "" []
  | value {value : String} {ts : List TokenTree} (joint : Bool) (p : Text.Position) :
      ValueSpelled value ts → AssignmentSpelled value (leaf (.punct '=' joint) p :: ts)

/-- Options behind their opening bracket, together with the closing one. -/
def EntriesSpelled : List (String × String) → List TokenTree → Prop
  | [], _ => False
  | [(key, value)], ts => ∃ assignment joint p q,
      ts = leaf (.ident key) p :: (assignment ++ [leaf (.punct '>' joint) q]) ∧
      AssignmentSpelled value assignment
  | (key, value) :: entry :: entries, ts => ∃ assignment joint p q rest,
      ts = leaf (.ident key) p :: (assignment ++ leaf (.punct ',' joint) q :: rest) ∧
      AssignmentSpelled value assignment ∧ EntriesSpelled (entry :: entries) rest

inductive Options.Spelled : Options → Nat → List TokenTree → Prop
  | none (i : Nat) : Options.Spelled .none i []
  | some {entries : List (String × String)} {ts : List TokenTree} (i : Nat) (joint : Bool)
      (p : Text.Position) : EntriesSpelled entries ts →
      Options.Spelled ⟨entries, some (.across i (leaf (.punct '<' joint) p :: ts))⟩ i
        (leaf (.punct '<' joint) p :: ts)

/-! ## Elements -/

/-- Whether a word is a literal, which no reference is named by. -/
def isTruth (word : String) : Bool :=
  word == "true" || word == "false"

/-- Whether a character at the end of some trees is not joint with the same one at the beginning of
others: two dots are the sign of a range, and two bars are not two signs of their own. -/
def Apart (c : Char) (ts us : List TokenTree) : Prop :=
  ∀ joint p q, ts.getLast? = some (leaf (.punct c true) p) →
    us.head? ≠ some (leaf (.punct c joint) q)

/-- The arguments of a reference or a rule, if there are any. -/
inductive ArgumentsSpelled : Option Snippet → Nat → List TokenTree → Prop
  | none (i : Nat) : ArgumentsSpelled none i []
  | some (i : Nat) (opened closed : Text.Position) (body : List TokenTree) :
      ArgumentsSpelled (some ⟨TokenTree.print body, .none, .single i⟩) i
        [group .bracket opened closed body]

def Suffix.char : Suffix → Char
  | .optional => '?'
  | .closure => '*'
  | .positiveClosure => '+'

/-- The operator behind an element and the mark of a reluctant one. -/
inductive SuffixSpelled : Suffix → Bool → List TokenTree → Prop
  | greedy (suffix : Suffix) (joint : Bool) (p : Text.Position) :
      SuffixSpelled suffix true [leaf (.punct suffix.char joint) p]
  | reluctant (suffix : Suffix) (joint joint' : Bool) (p q : Text.Position) :
      SuffixSpelled suffix false
        [leaf (.punct suffix.char joint) p, leaf (.punct '?' joint') q]

/-- The sign between a label and what it stands on. -/
inductive SignSpelled : Bool → List TokenTree → Prop
  | one (joint : Bool) (p : Text.Position) : SignSpelled false [leaf (.punct '=' joint) p]
  | list (joint : Bool) (p q : Text.Position) :
      SignSpelled true [leaf (.punct '+' true) p, leaf (.punct '=' joint) q]

/-- A literal that stands for some text. -/
def QuotationSpelled (literal : Quotation) (t : TokenTree) : Prop :=
  Literal.value? literal.text = some literal.value ∧ literal.value.isEmpty = false ∧
    ∃ p, t = leaf (.literal literal.text) p

/-- What stands in front of a lexer command. -/
inductive CommandMarkSpelled : List TokenTree → Prop
  | arrow (joint : Bool) (p q : Text.Position) :
      CommandMarkSpelled [leaf (.punct '-' true) p, leaf (.punct '>' joint) q]
  | comma (joint : Bool) (p : Text.Position) : CommandMarkSpelled [leaf (.punct ',' joint) p]

/-- The argument of a lexer command, if there is one. What stands behind it is left over. -/
inductive CommandArgSpelled : Option String → List TokenTree → Prop
  | none : CommandArgSpelled none []
  | some (arg : String) (opened closed p : Text.Position) (left : List TokenTree) :
      CommandArgSpelled (some arg) [group .parenthesis opened closed (leaf (.ident arg) p :: left)]

def Element.isBare : Element → Bool
  | .suffixed .. | .labeled .. | .set .. | .command .. | .epsilon _ => false
  | _ => true

def Element.isUnsuffixed : Element → Bool
  | .labeled .. => true
  | element => element.isBare

/-- Whether an element is an action, with or without a label. A question mark makes a predicate of
it, so it cannot be optional. -/
def Element.isAction : Element → Bool
  | .action _ => true
  | .labeled _ _ _ element _ => element.isAction
  | _ => false

def Element.isCommand : Element → Bool
  | .command .. => true
  | _ => false

def Element.endsWithDot : Element → Bool
  | .wildcard options _ => options.extent.isNone
  | .labeled _ _ _ element _ => element.endsWithDot
  | _ => false

inductive AltLabelSpelled : Option AltLabel → Nat → List TokenTree → Prop
  | none (i : Nat) : AltLabelSpelled none i []
  | some (name : String) (i : Nat) (joint : Bool) (p q : Text.Position) :
      AltLabelSpelled (some ⟨name, i⟩) i [leaf (.punct '#' joint) p, leaf (.ident name) q]

mutual
/-- The trees an element is read from, the first token of which is `i`. -/
def Element.Spelled (i : Nat) (ts : List TokenTree) : Element → Prop
  | .block alts options extent => options = .none ∧ extent = .across i ts ∧
      ∃ opened closed body, ts = [group .parenthesis opened closed body] ∧
        Alt.AllSpelled (i + 1) body alts
  | .ruleRef r => isTokenName r.name = false ∧ r.extent = .across i ts ∧ isTruth r.name = false ∧
      ∃ p args options, ts = leaf (.ident r.name) p :: (args ++ options) ∧
        ArgumentsSpelled r.args (i + 1) args ∧ r.options.Spelled (i + 1 + widths args) options
  | .tokenRef name options extent => isTokenName name = true ∧ extent = .across i ts ∧
      ∃ p rest, ts = leaf (.ident name) p :: rest ∧ options.Spelled (i + 1) rest
  | .quotation literal => literal.extent = .across i ts ∧
      ∃ t rest, ts = t :: rest ∧ QuotationSpelled literal t ∧ literal.options.Spelled (i + 1) rest
  | .range first last extent => extent = .across i ts ∧
      first.options = .none ∧ first.extent = .single i ∧
      last.options = .none ∧ last.extent = .single (i + 3) ∧
      ∃ t u joint p q, ts = [t, leaf (.punct '.' true) p, leaf (.punct '.' joint) q, u] ∧
        QuotationSpelled first t ∧ QuotationSpelled last u
  | .wildcard options extent => extent = .across i ts ∧
      ∃ joint p rest, ts = leaf (.punct '.' joint) p :: rest ∧ options.Spelled (i + 1) rest
  | .not operand extent => extent = .across i ts ∧
      ((∃ elements e, operand = .set elements e) ∨ Cursor.isNegatable operand = true) ∧
      ∃ joint p rest, ts = leaf (.punct '~' joint) p :: rest ∧ operand.Spelled (i + 1) rest
  | .set elements extent => extent = .across i ts ∧
      ∃ opened closed body, ts = [group .parenthesis opened closed body] ∧
        Element.SetSpelled (i + 1) body elements
  | .suffixed suffix greedy element extent => extent = .across i ts ∧
      element.isUnsuffixed = true ∧
      ∃ front back, ts = front ++ back ∧ element.Spelled i front ∧
        SuffixSpelled suffix greedy back ∧ (suffix = .optional → element.isAction = false)
  | .labeled isList label token element extent => extent = .across i ts ∧ token = i ∧
      element.isBare = true ∧
      ∃ p sign rest, ts = leaf (.ident label) p :: (sign ++ rest) ∧ SignSpelled isList sign ∧
        element.Spelled (i + 1 + widths sign) rest
  | .action code => code.options = .none ∧ code.extent = .single i ∧
      ∃ opened closed body, ts = [group .brace opened closed body] ∧
        code.text = TokenTree.print body
  | .predicate code => code.extent = .across i ts ∧
      ∃ opened closed body joint p rest,
        ts = group .brace opened closed body :: leaf (.punct '?' joint) p :: rest ∧
        code.text = TokenTree.print body ∧ code.options.Spelled (i + 2) rest
  | .command name arg extent => ∃ mark p rest, ts = mark ++ leaf (.ident name) p :: rest ∧
      extent = .across (i + widths mark) (leaf (.ident name) p :: rest) ∧
      CommandMarkSpelled mark ∧ CommandArgSpelled arg rest
  | .epsilon _ => False

def Element.ListSpelled (i : Nat) (ts : List TokenTree) : List Element → Prop
  | [] => ts = []
  | e :: es => ∃ front back, ts = front ++ back ∧ e.Spelled i front ∧ Apart '.' front back ∧
      Element.ListSpelled (i + widths front) back es

/-- The symbols of a set, with bars between them. -/
def Element.SetSpelled (i : Nat) (ts : List TokenTree) : List Element → Prop
  | [] => False
  | e :: es => Cursor.isNegatable e = true ∧ ∃ front back, ts = front ++ back ∧
      e.Spelled i front ∧
      ((es = [] ∧ back = []) ∨
        ∃ joint p rest, back = leaf (.punct '|' joint) p :: rest ∧
          Element.SetSpelled (i + widths front + 1) rest es)

/-- The trees an alternative is read from. It begins with its options or with its first element,
which a lexer command does not do with its mark. An alternative in which nothing is written stands at
the token behind it. -/
def Alt.Spelled (i : Nat) (ts : List TokenTree) : Alt → Prop
  | ⟨elements, options, label, extent, info⟩ => info = none ∧
      ∃ front body back, ts = front ++ body ++ back ∧ options.Spelled i front ∧
        AltLabelSpelled label (i + widths front + widths body) back ∧
        (extent = if front = [] ∧ body = [] then .single i else
          ⟨if front = [] then (elements.head?.map (·.extent.start)).getD i else i,
            i + widths ts - 1⟩) ∧
        ((body = [] ∧ elements = [.epsilon extent]) ∨
          (body ≠ [] ∧ elements ≠ [] ∧ Element.ListSpelled (i + widths front) body elements))

def Alt.AllSpelled (i : Nat) (ts : List TokenTree) : List Alt → Prop
  | [] => False
  | a :: as => ∃ front back, ts = front ++ back ∧ a.Spelled i front ∧
      ((as = [] ∧ back = []) ∨
        ∃ joint p rest, back = leaf (.punct '|' joint) p :: rest ∧
          Apart '|' [leaf (.punct '|' joint) p] rest ∧
          Alt.AllSpelled (i + widths front + 1) rest as)
end

end GrammarCompiler
