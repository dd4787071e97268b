import GrammarCompiler.Network.Build

/-!
# What a grammar derives

`Derives` says which texts a row of elements stands for, by the elements alone: a leaf is one of
its symbols, a block is one of its alternatives, a suffix repeats what it follows, and the name of
a rule is one of the alternatives of its definition. Labels mean nothing. Actions, commands and
predicates match the empty text, except that a predicate about a precedence has to pass.

The row is what is still to come. So an alternative is put in front of it, and what a suffix
follows is put in front of the suffix if it may come again. The text of a rule that is called ends
before the row goes on, since the rule has a precedence of its own.
-/

namespace GrammarCompiler

open Network (firstSymbol precedenceIn?)

/-- How elements are understood. -/
structure Dialect where
  grammar : Grammar
  vocabulary : Vocabulary
  /-- Whether characters or tokens are read. -/
  kind : NetworkKind
  /-- Whether a predicate passes in a rule that was entered with the first precedence and demands
  the second. -/
  passes : Int → Int → Prop

namespace Dialect

variable (dialect : Dialect)

/-! ## Leaves -/

def least : Int :=
  match dialect.kind with
  | .lexer => 0
  | .parser => Symbol.firstToken

def greatest : Int :=
  match dialect.kind with
  | .lexer => Symbol.lastChar
  | .parser => dialect.vocabulary.maxType

/-- The symbols of an element in a set. Rules have no place in a set. -/
inductive InSet : Element → Int → Prop
  | character {literal : Quotation} {c : Char} : dialect.kind = .lexer →
    c ∈ literal.value.toList → InSet (.quotation literal) (Symbol.ofChar c)
  | literal {literal : Quotation} {type : Int} : dialect.kind = .parser →
    dialect.vocabulary.literalType? literal.value = some type → InSet (.quotation literal) type
  | range {first last : Quotation} {extent : Extent} {n : Int} :
    firstSymbol first ≤ n → n ≤ firstSymbol last → InSet (.range first last extent) n
  | token {name : String} {options : Options} {extent : Extent} {type : Int} :
    dialect.kind = .parser → dialect.vocabulary.type? name = some type →
      InSet (.tokenRef name options extent) type
  | set {elements : List Element} {extent : Extent} {e : Element} {n : Int} :
    e ∈ elements → InSet e n → InSet (.set elements extent) n

/-- The symbols of an element that reads one symbol. A token without a type reads what is no
token. -/
inductive Matches : Element → Int → Prop
  | token (name : String) (options : Options) (extent : Extent) : dialect.kind = .parser →
    Matches (.tokenRef name options extent)
      ((dialect.vocabulary.type? name).getD Symbol.invalid)
  | literal (literal : Quotation) : dialect.kind = .parser →
    Matches (.quotation literal)
      ((dialect.vocabulary.literalType? literal.value).getD Symbol.invalid)
  | range {first last : Quotation} {extent : Extent} {n : Int} :
    firstSymbol first ≤ n → n ≤ firstSymbol last → Matches (.range first last extent) n
  | wildcard {options : Options} {extent : Extent} {n : Int} :
    dialect.least ≤ n → n ≤ dialect.greatest → Matches (.wildcard options extent) n
  | set {elements : List Element} {extent : Extent} {n : Int} :
    dialect.InSet (.set elements extent) n → Matches (.set elements extent) n
  | not {operand : Element} {extent : Extent} {n : Int} :
    dialect.least ≤ n → n ≤ dialect.greatest → ¬dialect.InSet operand n →
      Matches (.not operand extent) n

/-! ## Rules -/

/-- The rule that an element calls, and the precedence that it is entered with. A lexer calls the
rules of tokens, a parser reads their tokens. -/
def calls? (kind : NetworkKind) : Element → Option (String × Int)
  | .ruleRef r => some (r.name, (precedenceIn? r.options).getD 0)
  | .tokenRef name _ _ => if kind = .lexer then some (name, 0) else none
  | _ => none

/-- The rule of a name, if it is of the kind that is read. -/
def rule? (name : String) : Option Rule :=
  (dialect.grammar.rule? name).filter (·.isLexerRule == (dialect.kind == .lexer))

/-- What a name stands for. -/
def Defines (name : String) (definition : RuleDef) : Prop :=
  ∃ rule, dialect.rule? name = some rule ∧ dialect.grammar.definition? rule = some definition

theorem Defines.unique {dialect : Dialect} {name : String} {definition definition' : RuleDef}
    (h : dialect.Defines name definition) (h' : dialect.Defines name definition') :
    definition = definition' := by
  obtain ⟨rule, hrule, hdefinition⟩ := h
  obtain ⟨rule', hrule', hdefinition'⟩ := h'
  obtain rfl := Option.some.inj (hrule.symm.trans hrule')
  exact Option.some.inj (hdefinition.symm.trans hdefinition')

/-- If an element calls a rule, there is one. -/
def Resolves (e : Element) : Prop :=
  ∀ name precedence, calls? dialect.kind e = some (name, precedence) →
    ∃ definition, dialect.Defines name definition

instance (e : Element) : Decidable (dialect.Resolves e) :=
  decidable_of_iff
    ((calls? dialect.kind e).all fun call =>
      ((dialect.rule? call.1).bind dialect.grammar.definition?).isSome) (by
    unfold Resolves Defines
    cases calls? dialect.kind e with
    | none => simp
    | some call =>
        simp only [Option.all_some, Option.isSome_iff_exists, Option.bind_eq_some_iff,
          Option.some.injEq]
        constructor
        · rintro ⟨definition, rule, hrule, hdefinition⟩ name precedence rfl
          exact ⟨definition, rule, hrule, hdefinition⟩
        · intro h
          obtain ⟨definition, rule, hrule, hdefinition⟩ := h call.1 call.2 rfl
          exact ⟨definition, rule, hrule, hdefinition⟩)

/-- Whether an element matches the empty text and nothing else. -/
inductive Empty : Element → Prop
  | action (code : Snippet) : Empty (.action code)
  | predicate {code : Snippet} : precedenceIn? code.options = none → Empty (.predicate code)
  | command (name : String) (arg : Option String) (extent : Extent) : Empty (.command name arg extent)
  | epsilon (extent : Extent) : Empty (.epsilon extent)

/-- The texts of a row of elements in a rule that was entered with the precedence `entry`. -/
inductive Derives : Int → List Element → List Int → Prop
  | done (entry : Int) : Derives entry [] []
  | symbol {entry : Int} {e : Element} {row : List Element} {n : Int} {w : List Int} :
    dialect.Matches e n → Derives entry row w → Derives entry (e :: row) (n :: w)
  | word {entry : Int} {literal : Quotation} {row : List Element} {w : List Int} :
    dialect.kind = .lexer → Derives entry row w →
      Derives entry (.quotation literal :: row) (literal.value.toList.map Symbol.ofChar ++ w)
  | call {entry : Int} {e : Element} {name : String} {precedence : Int} {definition : RuleDef}
    {alt : Alt} {row : List Element} {u w : List Int} :
    calls? dialect.kind e = some (name, precedence) → dialect.Defines name definition →
    alt ∈ definition.alts → Derives precedence alt.elements u → Derives entry row w →
      Derives entry (e :: row) (u ++ w)
  | empty {entry : Int} {e : Element} {row : List Element} {w : List Int} :
    Empty e → Derives entry row w → Derives entry (e :: row) w
  | precedence {entry demanded : Int} {code : Snippet} {row : List Element} {w : List Int} :
    precedenceIn? code.options = some demanded → dialect.passes entry demanded →
      Derives entry row w → Derives entry (.predicate code :: row) w
  | labeled {entry : Int} {isList : Bool} {label : String} {labelToken : Nat} {inner : Element}
    {extent : Extent} {row : List Element} {w : List Int} : Derives entry (inner :: row) w →
      Derives entry (.labeled isList label labelToken inner extent :: row) w
  | block {entry : Int} {alts : List Alt} {options : Options} {extent : Extent} {alt : Alt}
    {row : List Element} {w : List Int} : alt ∈ alts → Derives entry (alt.elements ++ row) w →
      Derives entry (.block alts options extent :: row) w
  | skip {entry : Int} {suffix : Suffix} {greedy : Bool} {inner : Element} {extent : Extent}
    {row : List Element} {w : List Int} : suffix ≠ .positiveClosure → Derives entry row w →
      Derives entry (.suffixed suffix greedy inner extent :: row) w
  | once {entry : Int} {suffix : Suffix} {greedy : Bool} {inner : Element} {extent : Extent}
    {row : List Element} {w : List Int} : Derives entry (inner :: row) w →
      Derives entry (.suffixed suffix greedy inner extent :: row) w
  | again {entry : Int} {suffix : Suffix} {greedy : Bool} {inner : Element} {extent : Extent}
    {row : List Element} {w : List Int} : suffix ≠ .optional →
    Derives entry (inner :: .suffixed suffix greedy inner extent :: row) w →
      Derives entry (.suffixed suffix greedy inner extent :: row) w

/-- The texts of a rule that is entered with a precedence. -/
def DerivesRule (definition : RuleDef) (entry : Int) (w : List Int) : Prop :=
  ∃ alt ∈ definition.alts, dialect.Derives entry alt.elements w

variable {dialect}

/-- Rows one behind the other derive texts one behind the other. -/
theorem Derives.append {entry : Int} {row row' : List Element} {u w : List Int}
    (h : dialect.Derives entry row u) (h' : dialect.Derives entry row' w) :
    dialect.Derives entry (row ++ row') (u ++ w) := by
  induction h with
  | done => exact h'
  | symbol hmatches _ ih => exact .symbol hmatches (ih h')
  | word hkind _ ih =>
      rw [List.append_assoc]
      exact .word hkind (ih h')
  | call hcalls hdefines halt hbody _ _ ih =>
      rw [List.append_assoc]
      exact .call hcalls hdefines halt hbody (ih h')
  | empty hempty _ ih => exact .empty hempty (ih h')
  | precedence hprecedence hpasses _ ih => exact .precedence hprecedence hpasses (ih h')
  | labeled _ ih => exact .labeled (ih h')
  | block halt _ ih =>
      have hrow := ih h'
      rw [List.append_assoc] at hrow
      exact .block halt hrow
  | skip hsuffix _ ih => exact .skip hsuffix (ih h')
  | once _ ih => exact .once (ih h')
  | again hsuffix _ ih => exact .again hsuffix (ih h')

theorem derives_block {entry : Int} {alts : List Alt} {options : Options} {extent : Extent}
    {row : List Element} {w : List Int} :
    dialect.Derives entry (.block alts options extent :: row) w ↔
      ∃ alt ∈ alts, dialect.Derives entry (alt.elements ++ row) w := by
  constructor
  · intro h
    cases h with
    | symbol hmatches => cases hmatches
    | call hcalls => cases hcalls
    | empty hempty => cases hempty
    | block halt h => exact ⟨_, halt, h⟩
  · rintro ⟨alt, halt, h⟩
    exact .block halt h

/-- What has to come once and may come again comes once, or once and then again. -/
theorem Derives.closure {entry : Int} {whole front row : List Element} {greedy : Bool}
    {inner : Element} {extent : Extent} {w : List Int} (h : dialect.Derives entry whole w)
    (hwhole : whole = front ++ .suffixed .closure greedy inner extent :: row) :
    dialect.Derives entry (front ++ row) w ∨
      dialect.Derives entry (front ++ .suffixed .positiveClosure greedy inner extent :: row) w := by
  induction h generalizing front with
  | done => exact absurd hwhole.symm (List.append_ne_nil_of_right_ne_nil _ (List.cons_ne_nil _ _))
  | symbol hmatches _ ih =>
      rcases List.cons_eq_append_iff.mp hwhole with ⟨rfl, heq⟩ | ⟨rest, rfl, rfl⟩
      · cases heq; cases hmatches
      · exact (ih rfl).imp (.symbol hmatches) (.symbol hmatches)
  | word hkind _ ih =>
      rcases List.cons_eq_append_iff.mp hwhole with ⟨rfl, heq⟩ | ⟨rest, rfl, rfl⟩
      · cases heq
      · exact (ih rfl).imp (.word hkind) (.word hkind)
  | call hcalls hdefines halt hbody _ _ ih =>
      rcases List.cons_eq_append_iff.mp hwhole with ⟨rfl, heq⟩ | ⟨rest, rfl, rfl⟩
      · cases heq; cases hcalls
      · exact (ih rfl).imp (.call hcalls hdefines halt hbody) (.call hcalls hdefines halt hbody)
  | empty hempty _ ih =>
      rcases List.cons_eq_append_iff.mp hwhole with ⟨rfl, heq⟩ | ⟨rest, rfl, rfl⟩
      · cases heq; cases hempty
      · exact (ih rfl).imp (.empty hempty) (.empty hempty)
  | precedence hprecedence hpasses _ ih =>
      rcases List.cons_eq_append_iff.mp hwhole with ⟨rfl, heq⟩ | ⟨rest, rfl, rfl⟩
      · cases heq
      · exact (ih rfl).imp (.precedence hprecedence hpasses) (.precedence hprecedence hpasses)
  | labeled _ ih =>
      rcases List.cons_eq_append_iff.mp hwhole with ⟨rfl, heq⟩ | ⟨rest, rfl, rfl⟩
      · cases heq
      · exact (ih (List.cons_append ..).symm).imp .labeled .labeled
  | block halt _ ih =>
      rcases List.cons_eq_append_iff.mp hwhole with ⟨rfl, heq⟩ | ⟨rest, rfl, rfl⟩
      · cases heq
      · have h := ih (List.append_assoc ..).symm
        rw [List.append_assoc, List.append_assoc] at h
        exact h.imp (.block halt) (.block halt)
  | skip hsuffix hrow ih =>
      rcases List.cons_eq_append_iff.mp hwhole with ⟨rfl, heq⟩ | ⟨rest, rfl, rfl⟩
      · cases heq
        exact .inl hrow
      · exact (ih rfl).imp (.skip hsuffix) (.skip hsuffix)
  | once hrow ih =>
      rcases List.cons_eq_append_iff.mp hwhole with ⟨rfl, heq⟩ | ⟨rest, rfl, rfl⟩
      · cases heq
        exact .inr (.once hrow)
      · exact (ih (List.cons_append ..).symm).imp .once .once
  | again hsuffix hrow ih =>
      rcases List.cons_eq_append_iff.mp hwhole with ⟨rfl, heq⟩ | ⟨rest, rfl, rfl⟩
      · cases heq
        exact .inr ((@ih [inner] rfl).elim .once (.again nofun))
      · exact (ih (show _ = (_ :: _ :: rest) ++ _ from rfl)).imp (.again hsuffix) (.again hsuffix)

end Dialect

end GrammarCompiler
