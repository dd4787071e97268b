import GrammarCompiler.Proofs.Compile
import GrammarCompiler.Proofs.Model.Choices
import GrammarCompiler.Proofs.Model.Coded
import GrammarCompiler.Proofs.Model.TestSet
import GrammarCompiler.Proofs.Network.Decisions
import GrammarCompiler.Proofs.Network.Language
import Mathlib.Data.List.Find

/-!
# A model reads what its network reads

The functions of a model are the code of the rules they are made from, provided that all decisions
about them are found and that no element reads a range of characters, which has no code
(`Source.codedBy`). So the model reads what the rules derive, and so does the network.
-/

namespace GrammarCompiler

open Network (precedenceIn?)

namespace ParserModel

namespace Source

/-- How the elements of a model are understood. -/
def dialect (source : Source) : Dialect where
  grammar := source.grammar
  vocabulary := source.vocabulary
  kind := .parser
  passes := fun entry demanded => entry ≤ demanded

/-- There are decisions under keys. -/
def KeysFound (source : Source) (keys : List (Nat × DecisionSite)) : Prop :=
  ∀ key ∈ keys, ∃ d, source.network.decisionAt? key.1 key.2 = some d

/-- There are no ranges of characters among elements. -/
def RangeFree (nodes : List Element) : Prop :=
  ∀ node ∈ nodes, node.kind ≠ .range

section Coded

variable {source : Source} {ops : List Operation} {row : List Element}

theorem KeysFound.left {keys keys' : List (Nat × DecisionSite)}
    (h : source.KeysFound (keys ++ keys')) : source.KeysFound keys :=
  fun key hkey => h key (List.mem_append_left _ hkey)

theorem KeysFound.right {keys keys' : List (Nat × DecisionSite)}
    (h : source.KeysFound (keys ++ keys')) : source.KeysFound keys' :=
  fun key hkey => h key (List.mem_append_right _ hkey)

theorem RangeFree.left {nodes nodes' : List Element} (h : RangeFree (nodes ++ nodes')) :
    RangeFree nodes :=
  fun node hnode => h node (List.mem_append_left _ hnode)

theorem RangeFree.right {nodes nodes' : List Element} (h : RangeFree (nodes ++ nodes')) :
    RangeFree nodes' :=
  fun node hnode => h node (List.mem_append_right _ hnode)

theorem RangeFree.tail {node : Element} {nodes : List Element} (h : RangeFree (node :: nodes)) :
    RangeFree nodes :=
  fun n hn => h n (List.mem_cons_of_mem _ hn)

/-! ## Sets -/

theorem inSet_iff_tokenType? {e : Element} (hset : ∀ elements extent, e ≠ .set elements extent)
    (hrange : e.kind ≠ .range) (n : Int) :
    source.dialect.InSet e n ↔ source.tokenType? e = some n := by
  constructor
  · intro h
    cases h with
    | character hkind => cases hkind
    | literal _ htype => exact htype
    | range => exact absurd rfl hrange
    | token _ htype => exact htype
    | set => exact absurd rfl (hset _ _)
  · intro h
    cases e with
    | tokenRef => exact .token rfl h
    | quotation => exact .literal rfl h
    | _ => cases h

/-- The types of a test set are the symbols of the elements it is made from. -/
theorem mem_testSet (hv : source.vocabulary.Fits) (elements : List Element) (n : Int) :
    n ∈ (source.testSet elements).tokens ↔ ∃ e ∈ elements, source.tokenType? e = some n := by
  have hle : ∀ n ∈ elements.filterMap source.tokenType?, n ≤ Text.maxInt32 := by
    intro n hn
    obtain ⟨e, -, he⟩ := List.mem_filterMap.mp hn
    cases e with
    | tokenRef => exact hv.names _ _ he
    | quotation => exact hv.literals _ _ he
    | _ => cases he
  have hmem := (IntervalSet.ofList_spec hle IntervalSet.canonical_empty).2 n
  rw [testSet, TestSet.mem_tokens_ofSet]
  refine hmem.trans ?_
  rw [or_iff_right (IntervalSet.not_mem_empty n), List.mem_filterMap]

theorem mem_testSet_elements (hv : source.vocabulary.Fits) {elements : List Element}
    (hformed : elements.all Cursor.isNegatable = true) (hfree : RangeFree elements) (n : Int) :
    n ∈ (source.testSet elements).tokens ↔ ∃ e ∈ elements, source.dialect.InSet e n := by
  rw [mem_testSet hv]
  refine exists_congr fun e => and_congr_right fun he => (inSet_iff_tokenType? ?_ (hfree e he) n).symm
  rintro es extent rfl
  cases List.all_eq_true.mp hformed _ he

theorem mem_operandSet (hv : source.vocabulary.Fits) {operand : Element}
    (hformed : operand.isFormed = true) (hfree : RangeFree operand.nodes) (n : Int) :
    n ∈ (source.operandSet operand).tokens ↔ source.dialect.InSet operand n := by
  unfold operandSet
  split
  · next elements extent =>
      have hsub : RangeFree elements := fun e he => hfree.tail e (mem_listNodes he)
      rw [mem_testSet_elements hv hformed hsub]
      constructor
      · rintro ⟨e, he, hn⟩
        exact .set he hn
      · intro h
        cases h with
        | set he hn => exact ⟨_, he, hn⟩
  · next hset =>
      rw [mem_testSet hv, inSet_iff_tokenType? hset (hfree operand (mem_nodes_self operand))]
      simp

/-! ## Blocks -/

def CodesAlts (source : Source) (codes : List AltCode) (alts : List Alt) : Prop :=
  ∀ (k : Nat) (code : AltCode) (alt : Alt), codes[k]? = some code → alts[k]? = some alt →
    source.dialect.Coded code.ops alt.elements

theorem coded_block {codes : List AltCode} {alts : List Alt} (halts : source.CodesAlts codes alts)
    (hlength : codes.length = alts.length) {token : Nat} {site : DecisionSite}
    (hfound : alts.length ≠ 1 → ∃ d, source.network.decisionAt? token site = some d)
    (options : Options) (extent : Extent) (hrest : source.dialect.Coded ops row) :
    source.dialect.Coded (source.block token site codes ++ ops)
      (.block alts options extent :: row) := by
  by_cases hone : alts.length = 1
  · obtain ⟨alt, rfl⟩ := List.length_eq_one_iff.mp hone
    obtain ⟨code, rfl⟩ := List.length_eq_one_iff.mp hlength
    exact .opens rfl ((halts 0 code alt rfl rfl).append hrest)
  · obtain ⟨d, hd⟩ := hfound hone
    have hblock : source.block token site codes = source.choiceAt token site none codes := by
      unfold block
      split
      · exact absurd hlength.symm hone
      · rfl
    rw [hblock, choiceAt_eq hd]
    exact .block (source.isBlock_choice none d codes) hone hlength halts hrest

def CodesOpenings (source : Source) (codes : List AltCode) (inner : Element) : Prop :=
  codes.length = inner.openings.length ∧
    ∀ (k : Nat) (code : AltCode) (front : List Element), codes[k]? = some code →
      inner.openings[k]? = some front → source.dialect.Coded code.ops front

theorem coded_suffixed {codes : List AltCode} {inner : Element} (hcodes : source.CodesOpenings codes inner)
    {token first : Nat} {suffix : Suffix}
    (hfound : source.KeysFound (suffix.keys token first codes.length))
    (hne : codes.length ≠ 0)
    (hbody : ∀ site, (codes.length ≠ 1 → ∃ d, source.network.decisionAt? token site = some d) →
      source.dialect.Coded (source.block token site codes) [inner])
    (greedy : Bool) (extent : Extent) (hrest : source.dialect.Coded ops row) :
    source.dialect.Coded (source.suffixed suffix greedy token first codes ++ ops)
      (.suffixed suffix greedy inner extent :: row) := by
  -- the decision between several alternatives in a loop
  have hinside : ∀ site, (∀ key ∈ (if 1 < codes.length then [(token, site)] else []),
      ∃ d, source.network.decisionAt? key.1 key.2 = some d) →
      source.dialect.Coded (source.block token site codes) [inner] := by
    intro site h
    refine hbody site fun hmany => h (token, site) ?_
    rw [if_pos (by omega)]
    exact List.mem_singleton_self _
  cases suffix with
  | optional =>
      obtain ⟨d, hd⟩ := hfound _ (List.mem_singleton_self _)
      rw [show source.suffixed .optional greedy token first codes = _ from choiceAt_eq hd ..]
      refine .optional (source.isBlock_choice ..) ?_ ?_ ?_ ?_ hrest
      · exact Bool.eq_false_iff.mpr fun h => by cases (source.isStar_choice ..).mp h
      · exact Bool.eq_false_iff.mpr fun h => by cases (source.isPlus_choice ..).mp h
      · exact (List.length_map ..).trans hcodes.1
      · intro k code front hcode hfront
        obtain ⟨code', hcode', rfl⟩ := Option.map_eq_some_iff.mp
          ((List.getElem?_map ..).symm.trans hcode)
        exact hcodes.2 k code' front hcode' hfront
  | closure =>
      obtain ⟨d, hd⟩ := hfound.right _ (List.mem_singleton_self _)
      rw [show source.suffixed .closure greedy token first codes = _ from choiceAt_eq hd ..]
      exact .star ((source.isStar_choice ..).mpr rfl) rfl (hinside .starBlock hfound.left) hrest
  | positiveClosure =>
      obtain ⟨d, hd⟩ := hfound.right _ (List.mem_singleton_self _)
      rw [show source.suffixed .positiveClosure greedy token first codes = _ from choiceAt_eq hd ..]
      exact .plus ((source.isPlus_choice ..).mpr rfl) rfl (hinside .plusBlock hfound.left) hrest

/-! ## Elements -/

/-- An element is coded if its decisions are found and it reads no ranges. A suffix asks for the
alternatives of a block apart from the choice between them. -/
structure CodesBoth (source : Source) (e : Element) : Prop where
  part : source.KeysFound e.keys → ∀ {ops row}, source.dialect.Coded ops row →
    ∀ label, source.dialect.Coded (source.element label e ++ ops) (e :: row)
  alts : ∀ {alts options extent}, e = .block alts options extent →
    source.KeysFound (Alt.listKeys alts) → source.CodesAlts (source.alts 1 alts) alts

theorem CodesBoth.leaf {e : Element}
    (h : ∀ {ops row}, source.dialect.Coded ops row →
      ∀ label, source.dialect.Coded (source.element label e ++ ops) (e :: row))
    (hblock : ∀ alts options extent, e ≠ .block alts options extent) : source.CodesBoth e :=
  ⟨fun _ _ _ hrest label => h hrest label, fun he => absurd he (hblock _ _ _)⟩

theorem CodesBoth.suffixed {inner : Element} (h : source.CodesBoth inner)
    (hformed : inner.isFormed = true) (suffix : Suffix) (greedy : Bool) (extent : Extent) :
    source.CodesBoth (.suffixed suffix greedy inner extent) := by
  refine ⟨fun hfound _ _ hrest label => ?_, nofun⟩
  by_cases hblock : ∃ alts options x, inner = .block alts options x
  · obtain ⟨alts, options, x, rfl⟩ := hblock
    rw [Element.keys] at hfound
    rw [Source.element]
    have halts := h.alts rfl hfound.left
    have hlength : (source.alts 1 alts).length = alts.length := length_alts 1 alts
    rw [Element.isFormed, Bool.and_eq_true] at hformed
    refine coded_suffixed ⟨?_, fun k code front hcode hfront => ?_⟩ ?_ ?_ (fun site hsite => ?_) greedy
      extent hrest
    · rw [hlength, Element.openings, List.length_map]
    · obtain ⟨alt, halt, rfl⟩ := Option.map_eq_some_iff.mp
        ((List.getElem?_map ..).symm.trans hfront)
      exact halts k code alt hcode halt
    · rw [hlength]
      exact hfound.right
    · rw [hlength]
      intro hzero
      rw [List.length_eq_zero_iff.mp hzero] at hformed
      cases hformed.1
    · rw [hlength] at hsite
      have hcoded := coded_block halts hlength hsite options x .done
      rw [List.append_nil] at hcoded
      exact hcoded
  · have hno : ∀ alts options x, inner = .block alts options x → False :=
      fun alts options x hx => hblock ⟨alts, options, x, hx⟩
    have hpart : source.KeysFound inner.keys →
        source.dialect.Coded (source.element none inner) [inner] := by
      intro hkeys
      have hcoded := h.part hkeys .done none
      rw [List.append_nil] at hcoded
      exact hcoded
    rw [Element.keys] at hfound
    · rw [Source.element]
      · have hopenings := Element.openings_of_ne fun alts options x hx => hno alts options x hx
        refine coded_suffixed ⟨?_, fun k code front hcode hfront => ?_⟩ hfound.right ?_
          (fun _ _ => hpart hfound.left) greedy extent hrest
        · rw [hopenings]
          rfl
        · rw [hopenings] at hfront
          obtain rfl := List.mem_singleton.mp (List.mem_of_getElem? hcode)
          obtain rfl := List.mem_singleton.mp (List.mem_of_getElem? hfront)
          exact hpart hfound.left
        · exact Nat.one_ne_zero
      · exact hno
    · exact hno

/-- A step that reads the symbols of an element. -/
theorem coded_symbol {op : Operation} {e : Element} (hop : op.isReader = true)
    (he : e.isSymbol = true)
    (hreads : ∀ n, op.Reads source.dialect.greatest n ↔ source.dialect.Matches e n)
    (hrest : source.dialect.Coded ops row) :
    source.dialect.Coded ([op] ++ ops) (e :: row) :=
  .reads hop he hreads hrest

theorem codes_block {alts : List Alt} {options : Options} {extent : Extent}
    (halts : ∀ num, source.KeysFound (Alt.listKeys alts) → source.CodesAlts (source.alts num alts) alts) :
    source.CodesBoth (.block alts options extent) := by
  refine ⟨fun hfound _ _ hrest label => ?_, fun he hfound => ?_⟩
  · rw [Element.keys] at hfound
    rw [Source.element]
    refine coded_block (halts 1 hfound.left) (length_alts 1 alts) (fun hmany => ?_) options
      extent hrest
    refine hfound.right (extent.start, .block) ?_
    rw [choiceKeys, if_neg hmany]
    exact List.mem_singleton_self _
  · obtain ⟨rfl, -, -⟩ := Element.block.inj he
    exact halts 1 hfound

/-- What matches a set matches one of its elements. -/
theorem codes_set (hv : source.vocabulary.Fits) {elements : List Element} {extent : Extent}
    (hformed : (Element.set elements extent).isFormed = true)
    (hfree : RangeFree (Element.set elements extent).nodes) :
    source.CodesBoth (.set elements extent) := by
  have hsub : RangeFree elements := fun e he => hfree.tail e (mem_listNodes he)
  refine .leaf (fun hrest label => ?_) fun _ _ _ heq => by cases heq
  rw [Source.element]
  refine coded_symbol rfl rfl (fun n => ?_) hrest
  refine (mem_testSet_elements hv hformed hsub n).trans ⟨?_, fun h => ?_⟩
  · rintro ⟨e, he, hn⟩
    exact .set (.set he hn)
  · cases h with
    | set h =>
        cases h with
        | set he hn => exact ⟨_, he, hn⟩

theorem codes_not (hv : source.vocabulary.Fits) {operand : Element} {extent : Extent}
    (hformed : (Element.not operand extent).isFormed = true)
    (hfree : RangeFree (Element.not operand extent).nodes) :
    source.CodesBoth (.not operand extent) := by
  refine .leaf (fun hrest label => ?_) fun _ _ _ heq => by cases heq
  rw [Source.element]
  refine coded_symbol rfl rfl (fun n => ?_) hrest
  rw [Element.isFormed] at hformed
  rw [Element.nodes] at hfree
  have hmem := mem_operandSet hv hformed hfree.tail n
  constructor
  · rintro ⟨hno, hleast, hgreatest⟩
    exact .not hleast hgreatest fun h => hno (hmem.mpr h)
  · intro h
    cases h with
    | not hleast hgreatest hno => exact ⟨fun h => hno (hmem.mp h), hleast, hgreatest⟩

mutual
theorem codes_element (hv : source.vocabulary.Fits) :
    ∀ e : Element, e.isFormed = true → RangeFree e.nodes → source.CodesBoth e
  | .block alts options extent, hformed, hfree => by
      rw [Element.isFormed, Bool.and_eq_true] at hformed
      exact codes_block (codes_alts hv alts hformed.2 hfree.tail)
  | .suffixed suffix greedy inner extent, hformed, hfree =>
      (codes_element hv inner hformed hfree.tail).suffixed hformed suffix greedy extent
  | .labeled isList name token inner extent, hformed, hfree => by
      have hinner := codes_element hv inner hformed hfree.tail
      refine ⟨fun hfound _ _ hrest label => ?_, nofun⟩
      rw [Source.element]
      exact .opens rfl (hinner.part hfound hrest (some name))
  | .ruleRef r, _, _ => by
      refine .leaf (fun hrest label => ?_) nofun
      rw [Source.element]
      exact .invoke hrest
  | .tokenRef name options extent, _, _ => by
      refine .leaf (fun hrest label => ?_) nofun
      rw [Source.element]
      refine coded_symbol rfl rfl (fun n => ⟨?_, fun h => ?_⟩) hrest
      · rintro rfl
        exact .token name options extent rfl
      · cases h
        rfl
  | .quotation literal, _, _ => by
      refine .leaf (fun hrest label => ?_) nofun
      rw [Source.element]
      refine coded_symbol rfl rfl (fun n => ⟨?_, fun h => ?_⟩) hrest
      · rintro rfl
        exact .literal literal rfl
      · cases h
        rfl
  | .range first last extent, _, hfree => absurd rfl (hfree _ (List.mem_singleton_self _))
  | .wildcard options extent, _, _ => by
      refine .leaf (fun hrest label => ?_) nofun
      rw [Source.element]
      refine coded_symbol rfl rfl (fun n => ⟨fun h => .wildcard h.1 h.2, fun h => ?_⟩) hrest
      cases h with
      | wildcard hleast hgreatest => exact ⟨hleast, hgreatest⟩
  | .set elements extent, hformed, hfree => codes_set hv hformed hfree
  | .not operand extent, hformed, hfree => codes_not hv hformed hfree
  | .action code, _, _ => by
      refine .leaf (fun hrest label => ?_) nofun
      rw [Source.element]
      exact .action hrest
  | .predicate code, _, _ => by
      refine .leaf (fun hrest label => ?_) nofun
      rw [Source.element]
      split
      · next p hp => exact .precedence hp hrest
      · next hnone => exact .predicate hnone hrest
  | .command name arg extent, _, _ => by
      refine .leaf (fun hrest label => ?_) nofun
      rw [Source.element]
      exact .opens rfl hrest
  | .epsilon extent, _, _ => by
      refine .leaf (fun hrest label => ?_) nofun
      rw [Source.element]
      exact .opens rfl hrest

theorem coded_elements (hv : source.vocabulary.Fits) : ∀ es : List Element, Element.listFormed es = true →
    RangeFree (Element.listNodes es) → source.KeysFound (Element.listKeys es) →
      source.dialect.Coded (source.elements es) es
  | [], _, _, _ => by
      rw [Source.elements]
      exact .done
  | e :: es, hformed, hfree, hfound => by
      rw [Element.listFormed, Bool.and_eq_true] at hformed
      rw [Source.elements]
      exact (codes_element hv e hformed.1 hfree.left).part hfound.left
        (coded_elements hv es hformed.2 hfree.right hfound.right) none

theorem codes_alts (hv : source.vocabulary.Fits) : ∀ alts : List Alt, Alt.listFormed alts = true →
    RangeFree (Alt.listNodes alts) → ∀ num, source.KeysFound (Alt.listKeys alts) →
      source.CodesAlts (source.alts num alts) alts
  | [], _, _, _, _ => nofun
  | ⟨elements, options, label, extent, info⟩ :: alts, hformed, hfree, num, hfound => by
      rw [Alt.listFormed, Bool.and_eq_true] at hformed
      rw [Source.alts]
      intro k code alt hcode halt
      cases k with
      | zero =>
          obtain rfl := Option.some.inj hcode
          obtain rfl := Option.some.inj halt
          exact coded_elements hv elements hformed.1 hfree.left hfound.left
      | succ k => exact codes_alts hv alts hformed.2 hfree.right (num + 1) hfound.right k code alt hcode halt
end

end Coded

/-! ## Rules -/

section Rules

variable {source : Source}

/-- The function of a rule is the code of the block of its alternatives. -/
theorem coded_rule (hv : source.vocabulary.Fits) {definition : RuleDef}
    (hformed : definition.isFormed = true) (hfree : RangeFree definition.nodes)
    (hfound : source.KeysFound definition.keys) (rule : Rule) :
    source.dialect.Coded (source.rule rule definition).body
      [.block definition.alts .none definition.block.extent] := by
  rw [RuleDef.isFormed, Bool.and_eq_true] at hformed
  have halts := codes_alts hv definition.alts hformed.2 hfree 1 hfound.left
  have hdecision : definition.alts.length ≠ 1 →
      ∃ d, source.network.decisionAt? definition.block.extent.start .ruleBlock = some d := by
    intro hmany
    refine hfound.right (definition.block.extent.start, .ruleBlock) ?_
    rw [choiceKeys, if_neg hmany]
    exact List.mem_singleton_self _
  have hcoded := coded_block halts (length_alts 1 definition.alts) hdecision .none
    definition.block.extent .done
  rw [List.append_nil] at hcoded
  exact hcoded

/-- The functions of a model are those of the rules of the parser. -/
theorem function?_model (hsteady : source.grammar.Steady) (name : String) :
    source.model.function? name = (source.dialect.rule? name).bind fun rule =>
      (source.grammar.definition? rule).map (source.rule rule) := by
  have hlexer : ∀ {rule : Rule}, rule.name = name → rule.isLexerRule = isTokenName name := by
    rintro rule rfl
    rfl
  rw [ParserModel.function?, model, List.find?_filterMap, Grammar.parserRules, List.find?_filter]
  congr 1
  cases hname : isTokenName name with
  | true =>
      refine (List.find?_eq_none.mpr fun rule _ h => ?_).trans
        (Option.filter_eq_none_iff.mpr fun rule hrule h => ?_).symm
      · obtain ⟨hno, hany⟩ := of_decide_eq_true h
        obtain ⟨function, hfunction, hbeq⟩ := (Option.any_eq_true _ _).mp hany
        obtain ⟨definition, -, rfl⟩ := Option.map_eq_some_iff.mp hfunction
        rw [hlexer (eq_of_beq hbeq), hname] at hno
        cases hno
      · rw [hlexer (Grammar.name_of_rule? hrule), hname] at h
        cases h
  | false =>
      have hfind : ∀ rule ∈ source.grammar.rules, decide ((!rule.isLexerRule) = true ∧
          ((source.grammar.definition? rule).map (source.rule rule)).any (·.name == name) = true) =
            (rule.name == name) := by
        intro rule hrule
        obtain ⟨definition, hdefinition⟩ := hsteady.definition hrule
        rw [hdefinition]
        by_cases h : rule.name = name
        · simp [hlexer h, hname, h, Source.rule]
        · simp [h, Source.rule]
      rw [List.find?_congr hfind]
      change source.grammar.rule? name =
        (source.grammar.rule? name).filter (·.isLexerRule == false)
      cases hrule : source.grammar.rule? name with
      | none => rfl
      | some rule => rw [Option.filter_some, hlexer (Grammar.name_of_rule? hrule), hname]; rfl

/-- What it takes for all rules of a parser to have code: the decisions about them are found, and
they read no ranges of characters. -/
structure Codable (source : Source) : Prop where
  fits : source.vocabulary.Fits
  steady : source.grammar.Steady
  formed : ∀ definition ∈ source.grammar.source.rules, definition.isFormed = true
  rangeFree : ∀ rule ∈ source.grammar.parserRules, ∀ definition,
    source.grammar.definition? rule = some definition → RangeFree definition.nodes
  found : ∀ rule ∈ source.grammar.parserRules, ∀ definition,
    source.grammar.definition? rule = some definition → source.KeysFound definition.keys

/-- The functions of a model are the code of its rules. -/
theorem Codable.codedBy (h : source.Codable) : source.dialect.CodedBy source.model := by
  refine ⟨rfl, fun _ _ => .rfl, ?_, ?_⟩
  · rintro name definition ⟨rule, hrule, hdefinition⟩
    have hmem : rule ∈ source.grammar.parserRules := Network.mem_rulesOf_of_rule? hrule
    have hdefinition : source.grammar.definition? rule = some definition := hdefinition
    refine ⟨source.rule rule definition, ?_, ?_⟩
    · rw [function?_model h.steady, hrule, Option.bind_some, hdefinition, Option.map_some]
    · exact coded_rule h.fits (h.formed definition (List.mem_of_getElem? hdefinition))
        (h.rangeFree rule hmem definition hdefinition) (h.found rule hmem definition hdefinition)
        rule
  · intro name function hfunction
    rw [function?_model h.steady] at hfunction
    obtain ⟨rule, hrule, hfunction⟩ := Option.bind_eq_some_iff.mp hfunction
    obtain ⟨definition, hdefinition, -⟩ := Option.map_eq_some_iff.mp hfunction
    exact ⟨definition, rule, hrule, hdefinition⟩

end Rules

end Source

end ParserModel

open ParserModel.Source (RangeFree) in
/-- The function of a rule in the model of a parser, with all choices open, reads what the network
reads between the start and the stop of the rule. The network steps over a reference to a rule that
there is not, where the model has no function to call. -/
theorem runs_iff_network {options : CompileOptions} {library : Library} {file text : String}
    {compilation : Compilation} (hcompile : compile options library file text = .ok compilation)
    {written : GrammarDef} (hparse : GrammarDef.parse file text = .ok written)
    (himports : written.imports = []) (hsize : compilation.vocabulary.nextType ≤ Text.maxInt32)
    {network : Network} (hparser : compilation.parser = some network)
    (hfree : ∀ rule ∈ compilation.grammar.parserRules, ∀ definition,
      compilation.grammar.definition? rule = some definition → RangeFree definition.nodes)
    {dialect : Dialect} (hdialect : dialect =
      ⟨compilation.grammar, compilation.vocabulary, .parser, fun entry demanded => entry ≤ demanded⟩)
    (hresolves : Network.AllResolve dialect) :
    ∃ model, compilation.model = some model ∧ ∀ rule ∈ compilation.grammar.parserRules,
      ∃ function ∈ model.rules, function.name = rule.name ∧ function.index = rule.index ∧
        ∃ start stop : Nat, network.ruleStarts[rule.index]? = some start ∧
          network.ruleStops[rule.index]? = some stop ∧ ∀ (p : Int) (w : List Int),
            (∃ trace, model.Runs compilation.vocabulary.maxType .free w p function.body 0 w.length
              trace) ↔
              network.Runs dialect.passes ⟨start, p, []⟩ w ⟨stop, p, []⟩ := by
  obtain ⟨made, hdecided⟩ := decided_of_apart hcompile
    (parserApart_of_compile hcompile hparse himports) hsize hparser
  obtain ⟨source, hsource⟩ : ∃ source : ParserModel.Source, source =
      ⟨compilation.grammar, network, compilation.vocabulary, compilation.look, options⟩ := ⟨_, rfl⟩
  have hcodable : source.Codable := by
    subst hsource
    exact ⟨hdecided.fits, hdecided.steady, hdecided.steady.formed, hfree,
      fun rule hrule definition hdefinition key hkey =>
        hdecided.found_of_key hrule hdefinition hkey⟩
  have hhosts : network.Hosts dialect := by
    rw [hdecided.ofGrammar, hdialect]
    exact Network.hosts_ofGrammar hdecided.steady.numbered hdecided.fits .parser _
  have hread : source.dialect = dialect := by
    subst hsource hdialect
    rfl
  have hgreatest : source.dialect.greatest = compilation.vocabulary.maxType := by
    rw [hsource]
    rfl
  refine ⟨source.model, hsource ▸ hdecided.model, fun rule hrule => ?_⟩
  obtain ⟨definition, hdefinition⟩ :=
    hdecided.steady.definition (List.mem_of_mem_filter hrule)
  obtain ⟨start, stop, hstart, hstop, hruns⟩ := hhosts.runs_iff hresolves
    (show rule ∈ Network.rulesOf dialect.grammar dialect.kind by rw [hdialect]; exact hrule)
    (show dialect.grammar.definition? rule = some definition by rw [hdialect]; exact hdefinition)
  have hsame : source.grammar = compilation.grammar := by rw [hsource]
  rw [← hsame] at hdefinition hrule
  have hcoded := source.coded_rule hcodable.fits
    (hcodable.formed definition (List.mem_of_getElem? hdefinition))
    (hcodable.rangeFree rule hrule definition hdefinition)
    (hcodable.found rule hrule definition hdefinition) rule
  refine ⟨source.rule rule definition, ?_, rfl, rfl, start, stop, hstart, hstop, fun p w => ?_⟩
  · exact List.mem_filterMap.mpr ⟨rule, hrule, by rw [hdefinition]; rfl⟩
  · rw [hruns, ← hgreatest, hcodable.codedBy.runs_iff hcoded w, hread, Dialect.derives_block]
    simp only [List.append_nil]
    rfl

/-- Loops, a rule that was left recursive, and a set: the function of each rule reads what the
network reads. -/
theorem runs_iff_network_climbing :
    ∃ (compilation : Compilation) (network : Network) (model : ParserModel),
      compile {} .empty "T.g" "parser grammar T; e : e X e | (A | ~A)+ ;" =
        .ok compilation ∧
      compilation.parser = some network ∧ compilation.model = some model ∧
      ∃ function ∈ model.rules, function.name = "e" ∧ ∃ start stop : Nat,
        network.ruleStarts[function.index]? = some start ∧
        network.ruleStops[function.index]? = some stop ∧ ∀ (p : Int) (w : List Int),
          (∃ trace, model.Runs compilation.vocabulary.maxType .free w p function.body 0 w.length
            trace) ↔
            network.Runs (fun entry demanded => entry ≤ demanded) ⟨start, p, []⟩ w
              ⟨stop, p, []⟩ := by
  have hgood :
      (compile {} .empty "T.g" "parser grammar T; e : e X e | (A | ~A)+ ;").toOption.any
        fun compilation => compilation.vocabulary.nextType ≤ Text.maxInt32 &&
          compilation.parser.isSome &&
          (compilation.grammar.parserRules.all fun rule =>
            (compilation.grammar.definition? rule).all fun definition =>
              definition.nodes.all (·.kind != .range)) &&
          Network.AllResolve ⟨compilation.grammar, compilation.vocabulary, .parser,
            fun entry demanded => entry ≤ demanded⟩ &&
          compilation.grammar.parserRules.any (·.name == "e") := by
    decide +kernel
  have hplain :
      (GrammarDef.parse "T.g" "parser grammar T; e : e X e | (A | ~A)+ ;").toOption.any
        fun written => written.imports.isEmpty := by
    decide +kernel
  obtain ⟨compilation, hcompile, hgood⟩ := (Option.any_eq_true _ _).mp hgood
  obtain ⟨written, hparse, hplain⟩ := (Option.any_eq_true _ _).mp hplain
  simp only [Bool.and_eq_true] at hgood
  obtain ⟨⟨⟨⟨hsize, hparser⟩, hfree⟩, hresolves⟩, hrule⟩ := hgood
  obtain ⟨network, hnetwork⟩ := Option.isSome_iff_exists.mp hparser
  obtain ⟨rule, hrule, hname⟩ := List.any_eq_true.mp hrule
  have hcompile := ok_of_toOption hcompile
  have hfree : ∀ rule ∈ compilation.grammar.parserRules, ∀ definition,
      compilation.grammar.definition? rule = some definition →
        ParserModel.Source.RangeFree definition.nodes := by
    intro rule hrule definition hdefinition node hnode
    have hrules := List.all_eq_true.mp hfree rule hrule
    rw [hdefinition] at hrules
    exact bne_iff_ne.mp (List.all_eq_true.mp hrules node hnode)
  obtain ⟨model, hmodel, hrules⟩ := runs_iff_network hcompile (ok_of_toOption hparse)
    (List.isEmpty_iff.mp hplain) (of_decide_eq_true hsize) hnetwork hfree rfl
    (of_decide_eq_true hresolves)
  obtain ⟨function, hfunction, hsame, hindex, start, stop, hstart, hstop, hruns⟩ :=
    hrules rule hrule
  rw [← hindex] at hstart hstop
  exact ⟨compilation, network, model, hcompile, hnetwork, hmodel, function, hfunction,
    hsame.trans (eq_of_beq hname), start, stop, hstart, hstop, hruns⟩

/-- A rule that is named like the mark of a rule for parts of tokens, and that is so marked, loses
its name with its left recursion. The network steps over a reference to it, and the model calls what
is not there. -/
theorem runs_iff_network_renamed :
    ∃ (compilation : Compilation) (network : Network) (model : ParserModel),
      compile {} .empty "T.g"
        "parser grammar T; s : fragment ; fragment fragment returns [i] : fragment X | Y ;" =
          .ok compilation ∧
      compilation.parser = some network ∧ compilation.model = some model ∧
      ∃ function ∈ model.rules, ∃ start stop : Nat,
        network.ruleStarts[function.index]? = some start ∧
        network.ruleStops[function.index]? = some stop ∧
        network.Runs (fun entry demanded => entry ≤ demanded) ⟨start, 0, []⟩ [] ⟨stop, 0, []⟩ ∧
        ¬∃ trace, model.Runs compilation.vocabulary.maxType .free [] 0 function.body 0 0 trace := by
  have hgood : (compile {} .empty "T.g"
      "parser grammar T; s : fragment ; fragment fragment returns [i] : fragment X | Y ;").toOption.any
        fun compilation => (compilation.parser.any fun network =>
            network.ruleStarts[0]? == some 0 && network.ruleStops[0]? == some 1 &&
              network.ways? 0 == some (false, [.epsilon 4]) &&
              network.ways? 4 == some (false, [.epsilon 5]) &&
              network.ways? 5 == some (false, [.epsilon 1])) &&
          compilation.model.any fun model => model.rules.any fun function =>
            function.index == 0 && function.body.any fun op =>
              op.callee?.any fun name => (model.function? name).isNone := by
    decide +kernel
  obtain ⟨compilation, hcompile, hgood⟩ := (Option.any_eq_true _ _).mp hgood
  obtain ⟨hnetwork, hmodel⟩ := (Bool.and_eq_true _ _).mp hgood
  obtain ⟨network, hparser, hnetwork⟩ := (Option.any_eq_true _ _).mp hnetwork
  obtain ⟨model, hmodel, hfunction⟩ := (Option.any_eq_true _ _).mp hmodel
  obtain ⟨function, hfunction, hcalls⟩ := List.any_eq_true.mp hfunction
  simp only [Bool.and_eq_true, beq_iff_eq] at hnetwork hcalls
  obtain ⟨⟨⟨⟨hstart, hstop⟩, hleft⟩, hover⟩, hright⟩ := hnetwork
  obtain ⟨hindex, hcalls⟩ := hcalls
  refine ⟨compilation, network, model, ok_of_toOption hcompile, hparser, hmodel, function, hfunction,
    0, 1, by rw [hindex]; exact hstart, by rw [hindex]; exact hstop, ?_, ?_⟩
  · have hpass : ∀ {a b c : Nat}, network.ways? a = some (false, [.epsilon b]) →
        network.Runs (fun entry demanded => entry ≤ demanded) ⟨b, 0, []⟩ [] ⟨c, 0, []⟩ →
          network.Runs (fun entry demanded => entry ≤ demanded) ⟨a, 0, []⟩ [] ⟨c, 0, []⟩ :=
      fun hways hruns => .step (.pass (Network.inner_iff_ways?.mpr
        ⟨_, _, hways, List.mem_singleton_self _⟩) rfl rfl trivial) hruns
    exact hpass hleft (hpass hover (hpass hright (.done _)))
  · rintro ⟨trace, hruns⟩
    obtain ⟨op, hop, hcallee⟩ := List.any_eq_true.mp hcalls
    obtain ⟨name, hcallee, hnone⟩ := (Option.any_eq_true _ _).mp hcallee
    have hsome := hruns.isSome_function? hop hcallee
    rw [Option.isNone_iff_eq_none.mp hnone] at hsome
    cases hsome

end GrammarCompiler
