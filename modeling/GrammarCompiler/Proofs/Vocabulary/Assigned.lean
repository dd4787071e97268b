import GrammarCompiler.Proofs.Vocabulary.Numbered

/-!
# The types of the tokens of a grammar

The vocabulary of a grammar defines the names of its tokens section, of its token rules and of the
tokens that its parser rules refer to, in this order, and then the literals of its parser rules
(`holds_ofGrammar`). If no token rule has the name of the end of the input, the types in use are those
from 1 up to the largest one, and no two tokens have the same type but a token rule and the literal
that is all it matches (`assigns_ofGrammar`).
-/

namespace GrammarCompiler

def Element.tokenName? : Element → Option String
  | .tokenRef name _ _ => some name
  | _ => none

def Element.quotation? : Element → Option Quotation
  | .quotation literal => some literal
  | _ => none

namespace Vocabulary

/-! ## What is defined -/

/-- The elements that can define tokens. A grammar for a lexer alone has no parser rules. -/
def tokenElements (grammar : Grammar) : List Element :=
  if grammar.kind = .lexer then [] else parserElements grammar

/-- The names of tokens where they are mentioned: in the tokens section, by token rules, and in parser
rules. -/
def mentionedNames (grammar : Grammar) : List String :=
  grammar.source.tokenDefs ++ grammar.tokenRules.map (·.name) ++
    (tokenElements grammar).filterMap Element.tokenName?

/-- The names of tokens, each where it is mentioned first. -/
def tokenNames (grammar : Grammar) : List String :=
  distinctNames (mentionedNames grammar)

def literalsOf (grammar : Grammar) : List Quotation :=
  (tokenElements grammar).filterMap Element.quotation?

/-- The type of the first token rule that matches a text and nothing else. -/
def sharedType? (grammar : Grammar) (text : String) : Option Int :=
  (aliasOf? grammar text).bind (ofGrammar grammar).1.type?

theorem noteElements_fst (grammar : Grammar) (elements : List Element)
    (state : Vocabulary × List Issue) :
    (elements.foldl (noteElement grammar) state).1 =
      (elements.filterMap Element.tokenName?).foldl define state.1 := by
  induction elements generalizing state with
  | nil => rfl
  | cons e es ih =>
      rw [List.foldl_cons, ih]
      cases e with
      | tokenRef name options extent =>
          have hname : (noteElement grammar state (.tokenRef name options extent)).1 =
              state.1.define name := by
            unfold noteElement
            dsimp only
            split
            · next hsome => rw [define, if_pos hsome]
            · rfl
          have hcons : (Element.tokenRef name options extent :: es).filterMap Element.tokenName? =
              name :: es.filterMap Element.tokenName? := rfl
          rw [hcons, List.foldl_cons, hname]
      | _ => rfl

/-- The vocabulary of a grammar: the names that it mentions, and then its literals. -/
theorem ofGrammar_fst (grammar : Grammar) :
    (ofGrammar grammar).1 = (literalsOf grammar).foldl
      (fun vocab literal => vocab.defineLiteral literal (aliasOf? grammar literal.value))
      ((mentionedNames grammar).foldl define empty) := by
  unfold ofGrammar literalsOf mentionedNames tokenElements
  rw [List.foldl_append, List.foldl_append]
  split
  · rfl
  · dsimp only
    rw [noteElements_fst]
    refine congrArg (List.foldl _ _) (List.filterMap_congr fun e _ => ?_)
    cases e <;> rfl

theorem holds_ofGrammar (grammar : Grammar) :
    (ofGrammar grammar).1.Holds (tokenNames grammar) (sharedType? grammar) (literalsOf grammar) := by
  generalize hbase : (mentionedNames grammar).foldl define empty = base
  have hnames : ∀ shared?, base.Holds (tokenNames grammar) shared? [] :=
    fun shared? => hbase ▸ holds_defined shared? (mentionedNames grammar)
  have hall := (hnames fun text => (aliasOf? grammar text).bind base.type?).defineLiterals
    (aliasOf? grammar) (fun _ => rfl) (literalsOf grammar)
  rw [← hbase, ← ofGrammar_fst, hbase] at hall
  -- literals leave the types of names as they are
  have htype : (ofGrammar grammar).1.type? = base.type? := by
    refine funext fun name => Option.ext fun type => ?_
    rw [hall.type?_eq_some, (hnames fun _ => none).type?_eq_some]
  unfold sharedType?
  rw [htype]
  exact hall

/-! ## Token rules that literals stand for -/

variable {grammar : Grammar}

theorem mem_tokenNames {name : String} :
    name ∈ tokenNames grammar ↔ name ∈ mentionedNames grammar ∧ name ≠ "EOF" := by
  unfold tokenNames distinctNames
  rw [List.mem_eraseDups, List.mem_filter, bne_iff_ne]

theorem mem_tokenNames_of_tokenRule {rule : Rule} (h : rule ∈ grammar.tokenRules)
    (hname : rule.name ≠ "EOF") : rule.name ∈ tokenNames grammar :=
  mem_tokenNames.mpr ⟨List.mem_append_left _ (List.mem_append_right _ (List.mem_map_of_mem h)), hname⟩

theorem sharedType?_eq {text : String} {rule : Rule}
    (h : (grammar.tokenRules.find? fun rule => onlyLiteral? grammar rule == some text) = some rule) :
    sharedType? grammar text = (ofGrammar grammar).1.type? rule.name := by
  unfold sharedType? aliasOf?
  rw [h]
  rfl

/-- A literal shares the type of a token rule. -/
theorem exists_tokenRule_of_sharedType? {text : String} {type : Int}
    (h : sharedType? grammar text = some type) :
    ∃ rule ∈ grammar.tokenRules, (ofGrammar grammar).1.type? rule.name = some type := by
  obtain ⟨name, hname, htype⟩ := Option.bind_eq_some_iff.mp h
  obtain ⟨rule, hrule, rfl⟩ := Option.map_eq_some_iff.mp hname
  exact ⟨rule, List.mem_of_find?_eq_some hrule, htype⟩

/-- A token rule always has a type to share. -/
theorem sharedType?_eq_none {text : String} :
    sharedType? grammar text = none ↔
      ∀ rule ∈ grammar.tokenRules, onlyLiteral? grammar rule ≠ some text := by
  cases hfind : grammar.tokenRules.find? fun rule => onlyLiteral? grammar rule == some text with
  | none =>
      have hnone : sharedType? grammar text = none := by
        unfold sharedType? aliasOf?
        rw [hfind]
        rfl
      refine iff_of_true hnone fun rule hrule heq => ?_
      exact List.find?_eq_none.mp hfind rule hrule (beq_iff_eq.mpr heq)
  | some rule =>
      have hmem := List.mem_of_find?_eq_some hfind
      have honly : onlyLiteral? grammar rule = some text :=
        beq_iff_eq.mp (List.find?_some (p := fun rule => onlyLiteral? grammar rule == some text) hfind)
      have hsome : ((ofGrammar grammar).1.type? rule.name).isSome = true := by
        rw [(holds_ofGrammar grammar).isSome_type?]
        by_cases heof : rule.name = "EOF"
        · exact Or.inl heof
        · exact Or.inr (mem_tokenNames_of_tokenRule hmem heof)
      rw [sharedType?_eq hfind]
      refine iff_of_false (fun hnone => ?_) fun hall => hall rule hmem honly
      rw [hnone] at hsome
      cases hsome

/-! ## Types in use -/

/-- What the types of a vocabulary say about the tokens of a grammar. -/
structure Assigns (vocab : Vocabulary) (grammar : Grammar) : Prop where
  /-- The types in use are those from 1 up to the largest one. -/
  dense : ∀ type : Int, 1 ≤ type ∧ type ≤ vocab.maxType ↔
    (∃ name, name ≠ "EOF" ∧ vocab.type? name = some type) ∨
      ∃ text, vocab.literalType? text = some type
  distinct : ∀ name name' type, vocab.type? name = some type → vocab.type? name' = some type →
    name = name'
  /-- Names are numbered in the order in which they are mentioned first. -/
  ordered : ∀ name type, name ≠ "EOF" → (vocab.type? name = some type ↔
    ∃ i : Nat, (tokenNames grammar)[i]? = some name ∧ type = i + 1)
  /-- A literal shares the type of the first token rule that matches it and nothing else. -/
  shared : ∀ literal ∈ literalsOf grammar, ∀ rule,
    (grammar.tokenRules.find? fun rule => onlyLiteral? grammar rule == some literal.value) =
      some rule →
    (vocab.type? rule.name).isSome ∧ vocab.literalType? literal.value = vocab.type? rule.name
  /-- Without such a rule it has a type behind those of all names and different from those of other
  literals. -/
  own : ∀ literal ∈ literalsOf grammar,
    (∀ rule ∈ grammar.tokenRules, onlyLiteral? grammar rule ≠ some literal.value) →
    ∃ type, vocab.literalType? literal.value = some type ∧ (tokenNames grammar).length < type ∧
      (∀ name, vocab.type? name ≠ some type) ∧
      ∀ text, vocab.literalType? text = some type → text = literal.value

section Holds

variable {vocab : Vocabulary} {names : List String} {shared? : String → Option Int}
  {literals : List Quotation}

theorem Holds.maxType_eq (h : vocab.Holds names shared? literals) :
    vocab.maxType = names.length + (ownTexts shared? literals).length := by
  unfold maxType
  rw [h.nextType_eq]
  omega

/-- A type in use is that of a name, or one that a literal has for its own. -/
theorem Holds.cases_type (h : vocab.Holds names shared? literals) {type : Int} (hpos : 1 ≤ type)
    (hle : type ≤ vocab.maxType) :
    (∃ (i : Nat) (name : String), names[i]? = some name ∧ type = i + 1) ∨
      ∃ (i : Nat) (text : String), (ownTexts shared? literals)[i]? = some text ∧
        type = names.length + 1 + i := by
  rw [h.maxType_eq] at hle
  by_cases hname : type ≤ names.length
  · have hlt : (type - 1).toNat < names.length := by omega
    exact Or.inl ⟨_, _, List.getElem?_eq_getElem hlt, by omega⟩
  · have hlt : (type - 1 - names.length).toNat < (ownTexts shared? literals).length := by omega
    exact Or.inr ⟨_, _, List.getElem?_eq_getElem hlt, by omega⟩

/-- The types of names are those up to their number. -/
theorem Holds.type?_bounds (h : vocab.Holds names shared? literals) {name : String} {type : Int}
    (htype : vocab.type? name = some type) :
    (name = "EOF" ∧ type = Symbol.eof) ∨ (name ∈ names ∧ 1 ≤ type ∧ type ≤ names.length) := by
  rcases h.type?_eq_some.mp htype with heof | ⟨i, hi, rfl⟩
  · exact Or.inl heof
  · obtain ⟨hlt, -⟩ := List.getElem?_eq_some_iff.mp hi
    exact Or.inr ⟨List.mem_of_getElem? hi, by omega, by omega⟩

/-- No name has a type behind those of the names. -/
theorem Holds.type?_ne (h : vocab.Holds names shared? literals) {type : Int}
    (hlt : names.length < type) (name : String) : vocab.type? name ≠ some type := by
  intro hname
  rcases h.type?_bounds hname with ⟨-, heof⟩ | ⟨-, -, hle⟩
  · unfold Symbol.eof at heof
    omega
  · omega

theorem Holds.eq_of_type? (h : vocab.Holds names shared? literals) {name name' : String}
    {type : Int} (htype : vocab.type? name = some type) (htype' : vocab.type? name' = some type) :
    name = name' := by
  rcases h.type?_eq_some.mp htype with ⟨rfl, rfl⟩ | ⟨i, hi, rfl⟩ <;>
    rcases h.type?_eq_some.mp htype' with ⟨rfl, heq⟩ | ⟨j, hj, heq⟩
  · rfl
  · unfold Symbol.eof at heq
    omega
  · unfold Symbol.eof at heq
    omega
  · obtain rfl : i = j := by omega
    exact Option.some.inj (hi.symm.trans hj)

/-- A type behind those of the names is that of one literal. -/
theorem Holds.eq_of_own (h : vocab.Holds names shared? literals)
    (hshared : ∀ text type, shared? text = some type → type ≤ names.length) {text text' : String}
    {type : Int} (hlt : names.length < type) (htext : vocab.literalType? text = some type)
    (htext' : vocab.literalType? text' = some type) : text = text' := by
  have hown : ∀ text, vocab.literalType? text = some type → ∃ i : Nat,
      (ownTexts shared? literals)[i]? = some text ∧ type = names.length + 1 + i := by
    intro text htext
    rcases (h.literalTypes text type).mp htext with ⟨-, hsome⟩ | hown
    · have := hshared text type hsome
      omega
    · exact hown
  obtain ⟨i, hi, rfl⟩ := hown text htext
  obtain ⟨j, hj, heq⟩ := hown text' htext'
  obtain rfl : i = j := by omega
  exact Option.some.inj (hi.symm.trans hj)

end Holds

theorem sharedType?_le {text : String} {type : Int} (h : sharedType? grammar text = some type) :
    type ≤ (tokenNames grammar).length := by
  obtain ⟨rule, -, htype⟩ := exists_tokenRule_of_sharedType? h
  rcases (holds_ofGrammar grammar).type?_bounds htype with ⟨-, heof⟩ | ⟨-, -, hle⟩
  · unfold Symbol.eof at heof
    omega
  · exact hle

/-- Shared types are types of names. -/
theorem sharedType?_bounds (heof : ∀ rule ∈ grammar.lexerRules, rule.name ≠ "EOF") {text : String}
    {type : Int} (h : sharedType? grammar text = some type) :
    ∃ name, name ≠ "EOF" ∧ (ofGrammar grammar).1.type? name = some type ∧ 1 ≤ type ∧
      type ≤ (tokenNames grammar).length := by
  obtain ⟨rule, hrule, htype⟩ := exists_tokenRule_of_sharedType? h
  have hne := heof rule (List.mem_filter.mp hrule).1
  rcases (holds_ofGrammar grammar).type?_bounds htype with ⟨habsurd, -⟩ | ⟨-, hbounds⟩
  · exact absurd habsurd hne
  · exact ⟨rule.name, hne, htype, hbounds⟩

theorem assigns_ofGrammar (heof : ∀ rule ∈ grammar.lexerRules, rule.name ≠ "EOF") :
    (ofGrammar grammar).1.Assigns grammar := by
  have h := holds_ofGrammar grammar
  refine ⟨fun type => ?_, fun name name' type => h.eq_of_type?, fun name type hne => ?_,
    fun literal hliteral rule hrule => ?_, fun literal hliteral hnone => ?_⟩
  · constructor
    · rintro ⟨hpos, hle⟩
      rcases h.cases_type hpos hle with ⟨i, name, hi, rfl⟩ | ⟨i, text, hi, rfl⟩
      · have hne : name ≠ "EOF" := fun heq => h.ordinary (heq ▸ List.mem_of_getElem? hi)
        exact Or.inl ⟨name, hne, h.type?_eq_some.mpr (Or.inr ⟨i, hi, rfl⟩)⟩
      · exact Or.inr ⟨text, (h.literalTypes text _).mpr (Or.inr ⟨i, hi, rfl⟩)⟩
    · rw [h.maxType_eq]
      rintro (⟨name, hne, htype⟩ | ⟨text, htype⟩)
      · rcases h.type?_bounds htype with ⟨habsurd, -⟩ | ⟨-, hpos, hle⟩
        · exact absurd habsurd hne
        · exact ⟨hpos, by omega⟩
      · rcases (h.literalTypes text type).mp htype with ⟨-, hsome⟩ | ⟨i, hi, rfl⟩
        · obtain ⟨-, -, -, hpos, hle⟩ := sharedType?_bounds heof hsome
          exact ⟨hpos, by omega⟩
        · obtain ⟨hlt, -⟩ := List.getElem?_eq_some_iff.mp hi
          exact ⟨by omega, by omega⟩
  · rw [h.type?_eq_some]
    simp only [hne, false_and, false_or]
  · have hsome : ((ofGrammar grammar).1.type? rule.name).isSome = true := by
      rw [h.isSome_type?]
      exact Or.inr (mem_tokenNames_of_tokenRule (List.mem_of_find?_eq_some hrule)
        (heof rule (List.mem_filter.mp (List.mem_of_find?_eq_some hrule)).1))
    obtain ⟨type, htype⟩ := Option.isSome_iff_exists.mp hsome
    refine ⟨hsome, htype ▸ (h.literalTypes _ _).mpr (Or.inl ⟨List.mem_map_of_mem hliteral, ?_⟩)⟩
    rw [sharedType?_eq hrule, htype]
  · have hown := mem_ownTexts (List.mem_map_of_mem hliteral) (sharedType?_eq_none.mpr hnone)
    obtain ⟨i, hi⟩ := List.mem_iff_getElem?.mp hown
    have htype := (h.literalTypes _ _).mpr (Or.inr ⟨i, hi, rfl⟩)
    exact ⟨_, htype, by omega, h.type?_ne (by omega), fun text htext =>
      h.eq_of_own (fun _ _ => sharedType?_le) (by omega) htext htype⟩

end Vocabulary

end GrammarCompiler
