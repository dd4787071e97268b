import GrammarCompiler.Proofs.Model.Readings
import GrammarCompiler.Proofs.Vocabulary.Assigned

/-!
# No token without a type

The vocabulary of a grammar is made from the same elements that its parser is made from. So every
token and every literal in a parser rule has a type, also where it is only excluded by a negation
(`resolves_ofGrammar`), and neither the network of the parser nor the model matches the type of no
token, which lookahead takes for a predicate (`token_types_exact`).

What a model reads is among what its grammar reads, whatever decisions its network has made: a construct
without a decision is left out as a whole (`ParserModel.Source.reads_element_subset`).
-/

namespace GrammarCompiler

/-! ## Steps of a model come from elements -/

namespace ParserModel.Source

variable {source : Source}

theorem reads_choiceAt_subset (source : Source) (token : Nat) (site : DecisionSite)
    (suffix : Option Suffix) (alts : List AltCode) :
    Operation.listReads (source.choiceAt token site suffix alts) ⊆ AltCode.listReads alts := by
  unfold choiceAt
  split
  · rw [Operation.listReads_choice]
    exact List.Subset.refl _
  · exact List.nil_subset _

theorem reads_block_subset (source : Source) (token : Nat) (site : DecisionSite)
    (alts : List AltCode) :
    Operation.listReads (source.block token site alts) ⊆ AltCode.listReads alts := by
  unfold block
  split
  · rw [AltCode.listReads, AltCode.listReads, List.append_nil, AltCode.reads_eq]
    exact List.Subset.refl _
  · exact source.reads_choiceAt_subset ..

theorem reads_loopBody_subset (source : Source) (token : Nat) (site : DecisionSite) (num : Nat)
    (alts : List AltCode) :
    AltCode.listReads (source.loopBody token site num alts) ⊆ AltCode.listReads alts := by
  unfold loopBody
  rw [AltCode.listReads, AltCode.listReads, List.append_nil, AltCode.reads_eq]
  exact source.reads_block_subset ..

theorem reads_suffixed_subset (source : Source) (suffix : Suffix) (greedy : Bool)
    (token first : Nat) (alts : List AltCode) :
    Operation.listReads (source.suffixed suffix greedy token first alts) ⊆
      AltCode.listReads alts := by
  unfold suffixed
  cases suffix with
  | optional =>
      refine List.Subset.trans (source.reads_choiceAt_subset ..) ?_
      rw [AltCode.listReads_renumber (· + if greedy then 0 else 1)]
      exact List.Subset.refl _
  | closure | positiveClosure =>
      exact List.Subset.trans (source.reads_choiceAt_subset ..)
        (source.reads_loopBody_subset ..)

mutual
/-- The steps of an element read only what its parts read. -/
theorem reads_element_subset : ∀ (e : Element) (label : Option String),
    Operation.listReads (source.element label e) ⊆ e.leaves.flatMap source.readsOf
  | .block alts options extent, label => by
      rw [Source.element, Element.leaves]
      exact List.Subset.trans (source.reads_block_subset ..) (reads_alts_subset alts 1)
  | .suffixed suffix greedy inner extent, label => by
      rw [Element.leaves]
      by_cases hblock : ∃ alts options x, inner = .block alts options x
      · obtain ⟨alts, options, x, rfl⟩ := hblock
        rw [Source.element, Element.leaves]
        exact List.Subset.trans (source.reads_suffixed_subset ..) (reads_alts_subset alts 1)
      · have hno : ∀ alts options x, inner = .block alts options x → False :=
          fun alts options x h => hblock ⟨alts, options, x, h⟩
        rw [Source.element]
        · refine List.Subset.trans (source.reads_suffixed_subset ..) ?_
          rw [AltCode.listReads, AltCode.listReads, List.append_nil, AltCode.reads_eq]
          exact reads_element_subset inner none
        · exact hno
  | .labeled _ name _ inner _, label => by
      rw [Source.element, Element.leaves]
      exact reads_element_subset inner _
  | .predicate code, label => by
      rw [Source.element]
      split <;> exact List.nil_subset _
  | .ruleRef _, _ | .tokenRef _ _ _, _ | .quotation _, _ | .range _ _ _, _ | .wildcard _ _, _
  | .not _ _, _ | .set _ _, _ | .action _, _ | .command _ _ _, _ | .epsilon _, _ => by
      rw [Source.element]
      exact List.Subset.refl _

theorem reads_elements_subset : ∀ es : List Element,
    Operation.listReads (source.elements es) ⊆ (Element.listLeaves es).flatMap source.readsOf
  | [] => by
      rw [Source.elements]
      exact List.nil_subset _
  | e :: es => by
      rw [Source.elements, Operation.listReads_append, Element.listLeaves, List.flatMap_append]
      exact List.append_subset.mpr
        ⟨List.subset_append_of_subset_left _ (reads_element_subset e none),
          List.subset_append_of_subset_right _ (reads_elements_subset es)⟩

theorem reads_alts_subset : ∀ (alts : List Alt) (num : Nat),
    AltCode.listReads (source.alts num alts) ⊆ (Alt.listLeaves alts).flatMap source.readsOf
  | [], num => by
      rw [Source.alts]
      exact List.nil_subset _
  | ⟨elements, _, _, _, _⟩ :: alts, num => by
      rw [Source.alts, AltCode.listReads, Source.alt, AltCode.reads_eq, Alt.listLeaves,
        List.flatMap_append]
      exact List.append_subset.mpr
        ⟨List.subset_append_of_subset_left _ (reads_elements_subset elements),
          List.subset_append_of_subset_right _ (reads_alts_subset alts (num + 1))⟩
end

/-- A step of a model is that of an element of a parser rule. -/
theorem exists_leaf_of_reads {op : Operation} (h : op ∈ source.model.reads) :
    ∃ rule ∈ source.grammar.parserRules, ∃ definition,
      source.grammar.definition? rule = some definition ∧
        ∃ e ∈ definition.leaves, op ∈ source.readsOf e := by
  obtain ⟨function, hfunction, hop⟩ := List.mem_flatMap.mp h
  obtain ⟨rule, hrule, hmade⟩ := List.mem_filterMap.mp hfunction
  obtain ⟨definition, hdefinition, rfl⟩ := Option.map_eq_some_iff.mp hmade
  have hleaves := source.reads_block_subset _ _ _ hop
  obtain ⟨e, he, hop⟩ := List.mem_flatMap.mp (reads_alts_subset definition.alts 1 hleaves)
  exact ⟨rule, hrule, definition, hdefinition, e, he, hop⟩

end ParserModel.Source

namespace Network

/-- What a network reads is read for an element of a rule. -/
theorem exists_leaf_of_readings {grammar : Grammar} {vocabulary : Vocabulary} {kind : NetworkKind}
    {t : Transition} (h : t ∈ (ofGrammar grammar vocabulary kind).readings) :
    ∃ rule ∈ rulesOf grammar kind, ∃ definition, grammar.definition? rule = some definition ∧
      ∃ e ∈ definition.leaves, t ∈ (scopeOf grammar vocabulary kind rule definition).readings
        (ofGrammar grammar vocabulary kind).ruleStarts e := by
  rw [readings_ofGrammar] at h
  obtain ⟨rule, hrule, ht⟩ := List.mem_flatMap.mp h
  obtain ⟨definition, hdefinition, ht⟩ := List.mem_flatMap.mp ht
  obtain ⟨e, he, ht⟩ := List.mem_flatMap.mp ht
  exact ⟨rule, hrule, definition, Option.mem_toList.mp hdefinition, e, he, ht⟩

end Network

namespace Vocabulary

/-! ## Tokens and literals resolve -/

/-- A type of the vocabulary, or that of the end of the input. -/
def Has (vocab : Vocabulary) (type : Int) : Prop :=
  type = Symbol.eof ∨ (1 ≤ type ∧ type ≤ vocab.maxType)

theorem Has.ne_invalid {vocab : Vocabulary} {type : Int} (h : vocab.Has type) :
    type ≠ Symbol.invalid := by
  rintro rfl
  rcases h with h | ⟨h, -⟩ <;> exact absurd h (by decide)

/-- If an element refers to a token or is a literal, the vocabulary has a type for it. -/
def Resolves (vocab : Vocabulary) : Element → Prop
  | .tokenRef name _ _ => ∃ type, vocab.type? name = some type ∧ vocab.Has type
  | .quotation literal => ∃ type, vocab.literalType? literal.value = some type ∧ vocab.Has type
  | _ => True

section Holds

variable {vocab : Vocabulary} {names : List String} {shared? : String → Option Int}
  {literals : List Quotation}

theorem Holds.has_of_type? (h : vocab.Holds names shared? literals) {name : String} {type : Int}
    (htype : vocab.type? name = some type) : vocab.Has type := by
  rcases h.type?_bounds htype with ⟨-, heof⟩ | ⟨-, hpos, hle⟩
  · exact Or.inl heof
  · exact Or.inr ⟨hpos, by rw [h.maxType_eq]; omega⟩

theorem Holds.has_of_own (h : vocab.Holds names shared? literals) {text : String} {i : Nat}
    (hi : (ownTexts shared? literals)[i]? = some text) :
    vocab.Has (names.length + 1 + i) := by
  obtain ⟨hlt, -⟩ := List.getElem?_eq_some_iff.mp hi
  exact Or.inr ⟨by omega, by rw [h.maxType_eq]; omega⟩

end Holds

variable {grammar : Grammar}

theorem has_of_literalType? {text : String} {type : Int}
    (h : (ofGrammar grammar).1.literalType? text = some type) : (ofGrammar grammar).1.Has type := by
  have hall := holds_ofGrammar grammar
  rcases (hall.literalTypes text type).mp h with ⟨-, hshared⟩ | ⟨i, hi, rfl⟩
  · obtain ⟨rule, -, htype⟩ := exists_tokenRule_of_sharedType? hshared
    exact hall.has_of_type? htype
  · exact hall.has_of_own hi

theorem mem_tokenElements (hkind : grammar.kind ≠ .lexer) {rule : Rule}
    (hrule : rule ∈ grammar.parserRules) {definition : RuleDef}
    (hdefinition : grammar.definition? rule = some definition) {e : Element}
    (he : e ∈ definition.nodes) : e ∈ tokenElements grammar := by
  unfold tokenElements parserElements
  rw [if_neg hkind]
  refine List.mem_flatMap.mpr ⟨rule, hrule, ?_⟩
  rw [hdefinition]
  exact he

/-- Every token and every literal in a parser rule has a type. -/
theorem resolves_ofGrammar (hkind : grammar.kind ≠ .lexer) {rule : Rule}
    (hrule : rule ∈ grammar.parserRules) {definition : RuleDef}
    (hdefinition : grammar.definition? rule = some definition) {e : Element}
    (he : e ∈ definition.nodes) : (ofGrammar grammar).1.Resolves e := by
  have hall := holds_ofGrammar grammar
  have hmem := mem_tokenElements hkind hrule hdefinition he
  cases e with
  | tokenRef name options extent =>
      have hsome : ((ofGrammar grammar).1.type? name).isSome = true := by
        rw [hall.isSome_type?]
        by_cases heof : name = "EOF"
        · exact Or.inl heof
        · refine Or.inr (mem_tokenNames.mpr ⟨List.mem_append_right _ ?_, heof⟩)
          exact List.mem_filterMap.mpr ⟨_, hmem, rfl⟩
      obtain ⟨type, htype⟩ := Option.isSome_iff_exists.mp hsome
      exact ⟨type, htype, hall.has_of_type? htype⟩
  | quotation literal =>
      have hsome : ((ofGrammar grammar).1.literalType? literal.value).isSome = true := by
        rw [hall.isSome_literalType?]
        exact List.mem_map.mpr ⟨literal, List.mem_filterMap.mpr ⟨_, hmem, rfl⟩, rfl⟩
      obtain ⟨type, htype⟩ := Option.isSome_iff_exists.mp hsome
      exact ⟨type, htype, has_of_literalType? htype⟩
  | _ => exact trivial

/-! ## What a parser matches -/

/-- A token that is read for an element is one that the element resolves to. -/
theorem Resolves.has_of_reading {vocab : Vocabulary} {e : Element} (h : vocab.Resolves e)
    {scope : Network.Scope} (hkind : scope.kind = .parser) (hvocabulary : scope.vocabulary = vocab)
    {starts : Array Nat} {label : Int} (hread : .atom 0 label ∈ scope.readings starts e) :
    vocab.Has label := by
  subst hvocabulary
  unfold Network.Scope.readings at hread
  cases e with
  | tokenRef name options extent =>
      obtain ⟨type, htype, hhas⟩ := h
      simp only [Network.reader?, hkind, reduceCtorEq, if_false, htype, Option.getD_some,
        List.mem_singleton, Transition.atom.injEq, true_and] at hread
      exact hread ▸ hhas
  | quotation literal =>
      obtain ⟨type, htype, hhas⟩ := h
      simp only [Network.reader?, hkind, reduceCtorEq, if_false, htype, Option.getD_some,
        List.mem_singleton, Transition.atom.injEq, true_and] at hread
      exact hread ▸ hhas
  | _ => simp [Network.reader?, Dialect.calls?, hkind] at hread

/-- So is a token that a model matches for it. -/
theorem Resolves.has_of_match {source : ParserModel.Source} {e : Element}
    (h : source.vocabulary.Resolves e) {type : Int}
    (hread : .matchToken type none ∈ source.readsOf e) : source.vocabulary.Has type := by
  unfold ParserModel.Source.readsOf at hread
  cases e with
  | tokenRef name options extent =>
      obtain ⟨type', htype, hhas⟩ := h
      simp only [htype, Option.getD_some, List.mem_singleton, Operation.matchToken.injEq,
        and_true] at hread
      exact hread ▸ hhas
  | quotation literal =>
      obtain ⟨type', htype, hhas⟩ := h
      simp only [htype, Option.getD_some, List.mem_singleton, Operation.matchToken.injEq,
        and_true] at hread
      exact hread ▸ hhas
  | _ => simp at hread

/-- The types of the tokens of a parser are dense, distinct and in order, every token and literal of
its rules has one, and none of its network's transitions and of its model's steps matches the type of
no token. -/
theorem token_types_exact (hkind : grammar.kind ≠ .lexer)
    (heof : ∀ rule ∈ grammar.lexerRules, rule.name ≠ "EOF") {vocabulary : Vocabulary}
    (hvocabulary : vocabulary = (ofGrammar grammar).1) :
    vocabulary.Assigns grammar ∧
    (∀ rule ∈ grammar.parserRules, ∀ definition, grammar.definition? rule = some definition →
      ∀ e ∈ definition.nodes, vocabulary.Resolves e) ∧
    (∀ target label, .atom target label ∈ (Network.ofGrammar grammar vocabulary .parser).transitions →
      vocabulary.Has label ∧ label ≠ Symbol.invalid) ∧
    ∀ source : ParserModel.Source, source.grammar = grammar → source.vocabulary = vocabulary →
      ∀ type, .matchToken type none ∈ source.model.reads →
        vocabulary.Has type ∧ type ≠ Symbol.invalid := by
  have hresolves : ∀ rule ∈ grammar.parserRules, ∀ definition,
      grammar.definition? rule = some definition → ∀ e ∈ definition.nodes,
        vocabulary.Resolves e := by
    intro rule hrule definition hdefinition e he
    rw [hvocabulary]
    exact resolves_ofGrammar hkind hrule hdefinition he
  refine ⟨hvocabulary ▸ assigns_ofGrammar heof, hresolves, fun target label hatom => ?_,
    fun source hgrammar hsource type hmatch => ?_⟩
  · have hread : .atom 0 label ∈ (Network.ofGrammar grammar vocabulary .parser).readings :=
      List.mem_filterMap.mpr ⟨_, hatom, rfl⟩
    obtain ⟨rule, hrule, definition, hdefinition, e, he, hread⟩ :=
      Network.exists_leaf_of_readings hread
    have hhas := (hresolves rule hrule definition hdefinition e
      (Alt.listLeaves_subset_nodes _ he)).has_of_reading rfl rfl hread
    exact ⟨hhas, hhas.ne_invalid⟩
  · subst hgrammar hsource
    obtain ⟨rule, hrule, definition, hdefinition, e, he, hread⟩ :=
      ParserModel.Source.exists_leaf_of_reads hmatch
    have hhas := (hresolves rule hrule definition hdefinition e
      (Alt.listLeaves_subset_nodes _ he)).has_of_match hread
    exact ⟨hhas, hhas.ne_invalid⟩

/-- A grammar with all sources of tokens: a tokens section, two token rules of which one matches just a
literal of the parser, a name that only the parser mentions, and two literals that only the parser
mentions, one of them behind a negation. -/
theorem token_types_exact_sources :
    ∃ (grammar : Grammar) (report : Report),
      Grammar.gather .empty "T.g" "grammar T; tokens \x7b A \x7d
s : INT '+' s | ID '*' | ~'(' EOF ; INT : '0' ; PLUS : '+' ;" = (some grammar, report) ∧
      grammar.kind ≠ .lexer ∧ (∀ rule ∈ grammar.lexerRules, rule.name ≠ "EOF") ∧
      tokenNames grammar = ["A", "INT", "PLUS", "ID"] ∧
      let vocabulary := (ofGrammar grammar).1
      vocabulary.maxType = 6 ∧ vocabulary.literalType? "+" = some 3 ∧
        vocabulary.literalType? "(" = some 6 ∧ vocabulary.Assigns grammar ∧
        (∀ target label,
          .atom target label ∈ (Network.ofGrammar grammar vocabulary .parser).transitions →
            vocabulary.Has label ∧ label ≠ Symbol.invalid) := by
  have hgood : (Grammar.gather .empty "T.g" "grammar T; tokens \x7b A \x7d
s : INT '+' s | ID '*' | ~'(' EOF ; INT : '0' ; PLUS : '+' ;").1.any fun grammar =>
      grammar.kind != .lexer && grammar.lexerRules.all (·.name != "EOF") &&
        tokenNames grammar == ["A", "INT", "PLUS", "ID"] &&
        let vocabulary := (ofGrammar grammar).1
        vocabulary.maxType == 6 && vocabulary.literalType? "+" == some 3 &&
          vocabulary.literalType? "(" == some 6 := by
    decide +kernel
  obtain ⟨grammar, report, hgather, hgood⟩ := Grammar.exists_gather_of_any hgood
  simp only [Bool.and_eq_true, bne_iff_ne, beq_iff_eq, List.all_eq_true] at hgood
  obtain ⟨⟨⟨hkind, heof⟩, hnames⟩, ⟨hmax, hplus⟩, hparen⟩ := hgood
  obtain ⟨hassigns, -, hatoms, -⟩ := token_types_exact hkind heof rfl
  exact ⟨grammar, report, hgather, hkind, heof, hnames, hmax, hplus, hparen, hassigns, hatoms⟩

end Vocabulary

end GrammarCompiler
