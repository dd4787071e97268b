import GrammarCompiler.Model.Build
import GrammarCompiler.Model.Code
import GrammarCompiler.Proofs.Grammar.Worded
import GrammarCompiler.Proofs.Vocabulary.Assigned

/-!
# Types that have names

Whether a type is that of a name is told from how it is shown: what begins with a quote is a literal.
No name begins with a quote, so every type of a name is told to have that name. A literal that is not
written in plain quotes is raw, and a raw literal begins with a letter: if nothing but literals have its
type and the first of them is raw, the way it is written is taken for a name
(`symbolic_names_exact`).
-/

namespace GrammarCompiler

/-! ## How names and literals begin -/

/-- Whether a text begins with a quote. -/
def beginsQuoted (text : String) : Bool :=
  text.toList.head?.any fun c => c == '\'' || c == '"'

/-- Whether a literal is raw: it begins with the letter that marks raw texts. -/
def Quotation.isRaw (literal : Quotation) : Bool :=
  literal.text.toList.head? == some 'r'

theorem beginsQuoted_of_isName {name : String} (h : Text.isName name = true) :
    beginsQuoted name = false := by
  unfold Text.isName at h
  unfold beginsQuoted
  split at h
  · next rest hlist =>
    rw [hlist]
    rfl
  · unfold Text.isIdent at h
    split at h
    · cases h
    · next c cs hlist =>
      rw [Bool.and_eq_true] at h
      rw [hlist, List.head?_cons, Option.any_some, Bool.or_eq_false_iff]
      constructor <;> refine beq_eq_false_iff_ne.mpr ?_ <;> rintro rfl <;>
        exact absurd h.1 (by decide)

theorem beginsQuoted_eq_not_isRaw {literal : Quotation}
    (h : Literal.value? literal.text = some literal.value) :
    beginsQuoted literal.text = !literal.isRaw := by
  obtain ⟨cs, hcs, -⟩ := Option.map_eq_some_iff.mp h
  unfold beginsQuoted Quotation.isRaw
  generalize literal.text.toList = chars at hcs
  unfold Literal.chars? at hcs
  split at hcs
  · rfl
  · rfl
  · rfl
  · rfl
  · cases hcs

namespace Vocabulary

/-! ## What is shown -/

section Holds

variable {vocab : Vocabulary} {names : List String} {shared? : String → Option Int}
  {literals : List Quotation}

theorem symbolicName?_eq_some {type : Int} {name : String} (hpos : 1 ≤ type) :
    vocab.symbolicName? type = some name ↔
      vocab.displays[type.toNat]? = some name ∧ beginsQuoted name = false := by
  unfold symbolicName?
  rw [if_neg (by omega), Option.filter_eq_some_iff, Bool.not_eq_true']
  rfl

theorem Holds.displays_name (h : vocab.Holds names shared? literals) {i : Nat} {name : String}
    (hi : names[i]? = some name) : vocab.displays[i + 1]? = some name := by
  obtain ⟨hlt, -⟩ := List.getElem?_eq_some_iff.mp hi
  rw [← Array.getElem?_toList, h.displays, List.cons_append, List.getElem?_cons_succ,
    List.getElem?_append_left hlt, hi]

theorem Holds.displays_own (h : vocab.Holds names shared? literals) {i : Nat} {text : String}
    (hi : (ownTexts shared? literals)[i]? = some text) :
    vocab.displays[names.length + i + 1]? = some (writing literals text) := by
  rw [← Array.getElem?_toList, h.displays, List.cons_append, List.getElem?_cons_succ,
    List.getElem?_append_right (Nat.le_add_right ..), Nat.add_sub_cancel_left, List.getElem?_map, hi]
  rfl

theorem value_of_find? {text : String} {literal : Quotation}
    (h : literals.find? (·.value == text) = some literal) : literal.value = text := by
  have hvalue := List.find?_some h
  exact beq_iff_eq.mp hvalue

/-- The first literal that stands for a text, and how it is written. -/
theorem exists_first {text : String} (h : text ∈ literals.map (·.value)) :
    ∃ literal, literals.find? (·.value == text) = some literal ∧ literal.value = text ∧
      writing literals text = literal.text := by
  obtain ⟨other, hother, rfl⟩ := List.mem_map.mp h
  have hsome : (literals.find? (·.value == other.value)).isSome :=
    List.find?_isSome.mpr ⟨other, hother, beq_self_eq_true _⟩
  obtain ⟨literal, hliteral⟩ := Option.isSome_iff_exists.mp hsome
  refine ⟨literal, hliteral, ?_, ?_⟩
  · exact value_of_find? hliteral
  · rw [writing, hliteral]
    rfl

end Holds

/-! ## Tokens of a grammar that is built -/

variable {grammar : Grammar}

theorem exists_rule_of_tokenElements {e : Element} (h : e ∈ tokenElements grammar) :
    ∃ rule ∈ grammar.parserRules, ∃ definition, grammar.definition? rule = some definition ∧
      e ∈ definition.nodes := by
  unfold tokenElements at h
  split at h
  · cases h
  · obtain ⟨rule, hrule, he⟩ := List.mem_flatMap.mp h
    cases hdefinition : grammar.definition? rule with
    | none =>
        rw [hdefinition] at he
        cases he
    | some definition =>
        rw [hdefinition] at he
        exact ⟨rule, hrule, definition, hdefinition, he⟩

/-- What is written for the elements that define tokens. -/
theorem sound_of_tokenElements (hworded : grammar.Worded) {e : Element} {w : Wording}
    (he : e ∈ tokenElements grammar) (hw : e.wording? = some w) : w.Sound := by
  obtain ⟨rule, -, definition, hdefinition, hnode⟩ := exists_rule_of_tokenElements he
  exact hworded.rules definition (List.mem_of_getElem? hdefinition) w
    (List.mem_filterMap.mpr ⟨e, hnode, hw⟩)

/-- The names of tokens are names. -/
theorem isName_of_tokenNames (hg : grammar.Built) {name : String}
    (h : name ∈ tokenNames grammar) : Text.isName name = true := by
  rcases List.mem_append.mp (mem_tokenNames.mp h).1 with h | h
  · rcases List.mem_append.mp h with h | h
    · exact hg.worded.tokenDefs name h
    · obtain ⟨rule, hrule, rfl⟩ := List.mem_map.mp h
      have hmem : rule ∈ grammar.rules :=
        List.mem_of_mem_filter (List.mem_of_mem_filter hrule)
      obtain ⟨definition, hdefinition⟩ := hg.steady.definition hmem
      rw [← (hg.tied.names rule hmem definition hdefinition).1]
      exact hg.steady.names definition (List.mem_of_getElem? hdefinition)
  · obtain ⟨e, he, hname⟩ := List.mem_filterMap.mp h
    cases e with
    | tokenRef other options extent =>
        obtain rfl : other = name := Option.some.inj hname
        exact sound_of_tokenElements hg.worded he (w := .name other) rfl
    | _ => cases hname

/-- The literals of parser rules stand for their texts. -/
theorem value?_of_literalsOf (hg : grammar.Built) {literal : Quotation}
    (h : literal ∈ literalsOf grammar) : Literal.value? literal.text = some literal.value := by
  obtain ⟨e, he, hliteral⟩ := List.mem_filterMap.mp h
  cases e with
  | quotation other =>
      obtain rfl : other = literal := Option.some.inj hliteral
      exact sound_of_tokenElements hg.worded he (w := .literal other.value other.text) rfl
  | _ => cases hliteral

/-! ## Names of types -/

/-- Whether a type is shown as a raw literal: no name has it, and the first literal that stands for the
text that has it is raw. -/
def ShownRaw (vocab : Vocabulary) (grammar : Grammar) (type : Int) (shown : String) : Prop :=
  (∀ name, vocab.type? name ≠ some type) ∧
    ∃ literal, (literalsOf grammar).find? (·.value == literal.value) = some literal ∧
      vocab.literalType? literal.value = some type ∧ literal.isRaw = true ∧ literal.text = shown

/-- A type of a name is told to have that name, and no other. -/
theorem symbolicName?_of_name (hg : grammar.Built) {i : Nat} {name shown : String}
    (hi : (tokenNames grammar)[i]? = some name) :
    (ofGrammar grammar).1.symbolicName? (i + 1) = some shown ↔ shown = name := by
  have hdisplay := (holds_ofGrammar grammar).displays_name hi
  have hquoted := beginsQuoted_of_isName (isName_of_tokenNames hg (List.mem_of_getElem? hi))
  have hindex : ((i : Int) + 1).toNat = i + 1 := by omega
  rw [symbolicName?_eq_some (by omega), hindex, hdisplay, Option.some.injEq]
  constructor
  · rintro ⟨rfl, -⟩
    rfl
  · rintro rfl
    exact ⟨rfl, hquoted⟩

/-- A type that a literal has for its own is told to have a name if the literal is raw. -/
theorem symbolicName?_of_own (hg : grammar.Built) {i : Nat} {text shown : String}
    (hi : (ownTexts (sharedType? grammar) (literalsOf grammar))[i]? = some text) :
    (ofGrammar grammar).1.symbolicName? ((tokenNames grammar).length + 1 + i) = some shown ↔
      ∃ literal, (literalsOf grammar).find? (·.value == text) = some literal ∧
        literal.isRaw = true ∧ literal.text = shown := by
  have hdisplay := (holds_ofGrammar grammar).displays_own hi
  obtain ⟨first, hfirst, -, hwriting⟩ :=
    exists_first (mem_of_mem_ownTexts (List.mem_of_getElem? hi)).1
  have hquoted := beginsQuoted_eq_not_isRaw
    (value?_of_literalsOf hg (List.mem_of_find?_eq_some hfirst))
  have hindex : (((tokenNames grammar).length : Int) + 1 + i).toNat =
      (tokenNames grammar).length + i + 1 := by omega
  rw [symbolicName?_eq_some (by omega), hindex, hdisplay, hwriting, Option.some.injEq]
  constructor
  · rintro ⟨rfl, hshown⟩
    rw [hquoted, Bool.not_eq_false'] at hshown
    exact ⟨first, hfirst, hshown, rfl⟩
  · rintro ⟨literal, hliteral, hraw, rfl⟩
    obtain rfl := Option.some.inj (hfirst.symm.trans hliteral)
    exact ⟨rfl, by rw [hquoted, hraw]; rfl⟩

/-- What a type in use is told to be named. -/
theorem symbolicName?_iff (hg : grammar.Built) {type : Int} (hpos : 1 ≤ type)
    (hle : type ≤ (ofGrammar grammar).1.maxType) (shown : String) :
    (ofGrammar grammar).1.symbolicName? type = some shown ↔
      (ofGrammar grammar).1.type? shown = some type ∨
        (ofGrammar grammar).1.ShownRaw grammar type shown := by
  have h := holds_ofGrammar grammar
  rcases h.cases_type hpos hle with ⟨i, name, hi, rfl⟩ | ⟨i, text, hi, rfl⟩
  · have htype : (ofGrammar grammar).1.type? name = some ((i : Int) + 1) :=
      h.type?_eq_some.mpr (Or.inr ⟨i, hi, rfl⟩)
    rw [symbolicName?_of_name hg hi]
    constructor
    · rintro rfl
      exact Or.inl htype
    · rintro (hshown | ⟨hnone, -⟩)
      · exact h.eq_of_type? hshown htype
      · exact absurd htype (hnone name)
  · have hbehind : ((tokenNames grammar).length : Int) < (tokenNames grammar).length + 1 + i := by
      omega
    have hnone := h.type?_ne hbehind
    have htext := (h.literalTypes text _).mpr (Or.inr ⟨i, hi, rfl⟩)
    rw [symbolicName?_of_own hg hi]
    constructor
    · rintro ⟨literal, hliteral, hraw, hshown⟩
      obtain rfl := value_of_find? hliteral
      exact Or.inr ⟨hnone, literal, hliteral, htext, hraw, hshown⟩
    · rintro (hshown | ⟨-, literal, hliteral, htype, hraw, hshown⟩)
      · exact absurd hshown (hnone shown)
      · have hvalue : literal.value = text :=
          h.eq_of_own (fun _ _ => sharedType?_le) hbehind htype htext
        subst hvalue
        exact ⟨literal, hliteral, hraw, hshown⟩

/-- The name of a type in use is the name that has the type, if there is one. Else there is no name
unless the type is shown as a raw literal. So the tokens of a model are names that generated code can
use, and raw literals. -/
theorem symbolic_names_exact (hg : grammar.Built) {vocabulary : Vocabulary}
    (hvocabulary : vocabulary = (ofGrammar grammar).1) :
    (∀ type : Int, 1 ≤ type → type ≤ vocabulary.maxType → ∀ shown,
      vocabulary.symbolicName? type = some shown ↔
        vocabulary.type? shown = some type ∨ vocabulary.ShownRaw grammar type shown) ∧
    ∀ source : ParserModel.Source, source.vocabulary = vocabulary →
      ∀ shown type, (shown, type) ∈ source.model.tokens →
        1 ≤ type ∧ type ≤ vocabulary.maxType ∧
          ((vocabulary.type? shown = some type ∧ Code.name shown = .ok shown) ∨
            vocabulary.ShownRaw grammar type shown) := by
  subst hvocabulary
  have h := holds_ofGrammar grammar
  refine ⟨fun type hpos hle => symbolicName?_iff hg hpos hle,
    fun source hsource shown type hmem => ?_⟩
  obtain ⟨n, hn, hsymbolic⟩ := List.mem_filterMap.mp hmem
  obtain ⟨shown', hshown, hpair⟩ := Option.map_eq_some_iff.mp hsymbolic
  obtain ⟨rfl, rfl⟩ := Prod.mk.inj hpair
  rw [hsource] at hn hshown
  have hpos : 1 ≤ (n : Int) := by
    by_contra hzero
    rw [symbolicName?, if_pos (by omega)] at hshown
    cases hshown
  have hle : (n : Int) ≤ (ofGrammar grammar).1.maxType := by
    have hlt := List.mem_range.mp hn
    unfold maxType nextType
    omega
  refine ⟨hpos, hle, ((symbolicName?_iff hg hpos hle shown').mp hshown).imp_left fun htype => ?_⟩
  refine ⟨htype, ?_⟩
  rcases h.type?_bounds htype with ⟨-, heof⟩ | ⟨hname, -⟩
  · unfold Symbol.eof at heof
    omega
  · rw [Code.name, if_pos (isName_of_tokenNames hg hname)]

/-- Two names, a literal that shares the type of one of them, a literal in quotes and a raw one. -/
theorem symbolic_names_exact_literals :
    ∃ (grammar : Grammar) (report : Report),
      Grammar.gather .empty "T.g" "grammar T; tokens \x7b A \x7d s : A '+' '-' r\"x\" ; B : '+' ;" =
        (some grammar, report) ∧
      let vocabulary := (ofGrammar grammar).1
      vocabulary.maxType = 4 ∧
      (∀ type : Int, 1 ≤ type → type ≤ 4 → ∀ shown,
        vocabulary.symbolicName? type = some shown ↔
          vocabulary.type? shown = some type ∨ vocabulary.ShownRaw grammar type shown) ∧
      vocabulary.type? "A" = some 1 ∧ vocabulary.type? "B" = some 2 ∧
      vocabulary.symbolicName? 3 = none ∧ vocabulary.symbolicName? 4 = some "r\"x\"" := by
  have hgood : (Grammar.gather .empty "T.g"
      "grammar T; tokens \x7b A \x7d s : A '+' '-' r\"x\" ; B : '+' ;").1.any fun grammar =>
      let vocabulary := (ofGrammar grammar).1
      vocabulary.maxType == 4 && vocabulary.type? "A" == some 1 && vocabulary.type? "B" == some 2 &&
        vocabulary.symbolicName? 3 == none &&
        vocabulary.symbolicName? 4 == some "r\"x\"" := by
    decide +kernel
  obtain ⟨grammar, report, hgather, hgood⟩ := Grammar.exists_gather_of_any hgood
  simp only [Bool.and_eq_true, beq_iff_eq] at hgood
  obtain ⟨⟨⟨⟨hmax, hfirst⟩, hsecond⟩, hquoted⟩, hraw⟩ := hgood
  obtain ⟨hnames, -⟩ := symbolic_names_exact (.gathered hgather) rfl
  exact ⟨grammar, report, hgather, hmax, hmax ▸ hnames, hfirst, hsecond, hquoted, hraw⟩

/-- The only token of a grammar is a raw literal. Its type is told to have a name, which is no name of a
token, and no code can be made of it. -/
theorem raw_literal_has_name :
    ∃ (grammar : Grammar) (report : Report),
      Grammar.gather .empty "T.g" "parser grammar T; s : r\"x\" ;" = (some grammar, report) ∧
      let vocabulary := (ofGrammar grammar).1
      vocabulary.maxType = 1 ∧ vocabulary.symbolicName? 1 = some "r\"x\"" ∧
        vocabulary.type? "r\"x\"" = none ∧ Code.name "r\"x\"" = .error ⟨"r\"x\""⟩ := by
  have hgood : (Grammar.gather .empty "T.g" "parser grammar T; s : r\"x\" ;").1.any fun grammar =>
      let vocabulary := (ofGrammar grammar).1
      vocabulary.maxType == 1 && vocabulary.symbolicName? 1 == some "r\"x\"" &&
        vocabulary.type? "r\"x\"" == none := by
    decide +kernel
  obtain ⟨grammar, report, hgather, hgood⟩ := Grammar.exists_gather_of_any hgood
  simp only [Bool.and_eq_true, beq_iff_eq] at hgood
  obtain ⟨⟨hmax, hsymbolic⟩, htype⟩ := hgood
  exact ⟨grammar, report, hgather, hmax, hsymbolic, htype, by decide +kernel⟩

end Vocabulary

end GrammarCompiler
