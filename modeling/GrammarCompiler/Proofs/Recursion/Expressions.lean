import GrammarCompiler.Proofs.Model.Expressions
import GrammarCompiler.Proofs.Model.Layout
import GrammarCompiler.Proofs.Recursion.Language

/-!
# Rules for expressions

A rule for expressions has tokens for operands and alternatives with an operator between two references
to the rule itself. Once its left recursion has been eliminated, the function of the rule climbs by
precedence: it reads every expression, and groups it as the order of the alternatives and their
associativities say (`reads_expressions`).
-/

namespace GrammarCompiler

open Network (precedenceIn?)

/-- A precedence that is written out can be read, unless it is too large. -/
theorem Text.precedence?_toString_of_le {n : Nat} (h : (n : Int) ≤ maxInt32) :
    precedence? (toString n) = some (n : Int) := by
  rw [precedence?_toString, Option.filter_some, if_pos]
  · rfl
  · rw [Bool.and_eq_true, decide_eq_true_eq, decide_eq_true_eq]
    exact ⟨Int.le_trans (by decide) (Int.natCast_nonneg n), h⟩

/-! ## Operands and operators -/

def Vocabulary.tokenOf? (vocabulary : Vocabulary) : Element → Option Int
  | .tokenRef name _ _ => some ((vocabulary.type? name).getD Symbol.invalid)
  | .quotation literal => some ((vocabulary.literalType? literal.value).getD Symbol.invalid)
  | _ => none

/-- The token that is all there is in an alternative. -/
def Alt.operand? (alt : Alt) (vocabulary : Vocabulary) : Option Int :=
  match alt.elements with
  | [e] => vocabulary.tokenOf? e
  | _ => none

/-- The operator that an alternative of a rule is: a token between references to the rule. -/
def Alt.operator? (alt : Alt) (vocabulary : Vocabulary) (name : String) (num : Nat) : Option Operator :=
  match alt.elements with
  | [.ruleRef first, e, .ruleRef last] =>
    if first.name = name ∧ last.name = name then
      (vocabulary.tokenOf? e).map fun token =>
        ⟨num, token, if alt.options.get? assocOption = some "right" then .right else .left⟩
    else none
  | _ => none

namespace RuleDef

/-- The operators and operands of a rule. -/
def operatorTable (rule : RuleDef) (vocabulary : Vocabulary) : OperatorTable where
  count := rule.alts.length
  operators := rule.numbered.filterMap fun (alt, num) => alt.operator? vocabulary rule.name num
  primaries := rule.alts.filterMap (·.operand? vocabulary)

/-- Whether all alternatives of a rule are operands or operators. -/
def IsExpression (rule : RuleDef) (vocabulary : Vocabulary) : Prop :=
  ∀ alt ∈ rule.numbered, (alt.1.operand? vocabulary).isSome ∨
    (alt.1.operator? vocabulary rule.name alt.2).isSome

instance (rule : RuleDef) (vocabulary : Vocabulary) : Decidable (rule.IsExpression vocabulary) :=
  inferInstanceAs (Decidable (∀ alt ∈ rule.numbered, _ ∨ _))

end RuleDef

section Shapes

variable {vocabulary : Vocabulary}

theorem Vocabulary.tokenOf?_bare (e : Element) : vocabulary.tokenOf? e.bare = vocabulary.tokenOf? e := by
  cases e with
  | ruleRef r => obtain ⟨name, args, options, extent⟩ := r; cases args <;> rfl
  | _ => rfl

theorem Vocabulary.refersTo_of_tokenOf? {e : Element} {t : Int} (h : vocabulary.tokenOf? e = some t)
    (name : String) : e.refersTo name = false := by
  cases e <;> first | rfl | cases h

theorem Alt.elements_of_operand? {alt : Alt} {t : Int} (h : alt.operand? vocabulary = some t) :
    ∃ e, alt.elements = [e] ∧ vocabulary.tokenOf? e = some t := by
  unfold operand? at h
  split at h
  · next e helements => exact ⟨e, helements, h⟩
  · cases h

theorem Alt.elements_of_operator? {alt : Alt} {name : String} {num : Nat} {op : Operator}
    (h : alt.operator? vocabulary name num = some op) :
    ∃ first e last, alt.elements = [.ruleRef first, e, .ruleRef last] ∧ first.name = name ∧
      last.name = name ∧ vocabulary.tokenOf? e = some op.token ∧ op.num = num ∧
      op.assoc = if alt.options.get? assocOption = some "right" then .right else .left := by
  unfold operator? at h
  split at h
  · next first e last helements =>
      split at h
      · next hnames =>
          obtain ⟨token, htoken, rfl⟩ := Option.map_eq_some_iff.mp h
          exact ⟨first, e, last, helements, hnames.1, hnames.2, htoken, rfl, rfl⟩
      · cases h
  · cases h

/-- All there is in a rule for expressions are references to rules and tokens. -/
theorem RuleDef.IsExpression.of_mem_nodes {rule : RuleDef} (h : rule.IsExpression vocabulary)
    {node : Element} (hnode : node ∈ rule.nodes) :
    (∃ ref, node = .ruleRef ref) ∨ ∃ t, vocabulary.tokenOf? node = some t := by
  have htokens : ∀ {e : Element} {t : Int}, vocabulary.tokenOf? e = some t → e.nodes = [e] := by
    intro e t ht
    cases e <;> first | rfl | cases ht
  unfold RuleDef.nodes at hnode
  rw [Alt.listNodes_eq_flatMap] at hnode
  obtain ⟨alt, halt, hnode⟩ := List.mem_flatMap.mp hnode
  obtain ⟨i, hi⟩ := List.mem_iff_getElem?.mp halt
  rw [Alt.nodes_eq] at hnode
  rcases h (alt, 1 + i) (List.mk_add_mem_zipIdx_iff_getElem?.mpr hi) with hsome | hsome
  · obtain ⟨t, ht⟩ := Option.isSome_iff_exists.mp hsome
    obtain ⟨e, helements, htoken⟩ := Alt.elements_of_operand? ht
    dsimp only at helements
    rw [helements, Element.listNodes, Element.listNodes, List.append_nil, htokens htoken] at hnode
    exact .inr ⟨t, List.mem_singleton.mp hnode ▸ htoken⟩
  · obtain ⟨op, hop⟩ := Option.isSome_iff_exists.mp hsome
    obtain ⟨first, e, last, helements, -, -, htoken, -, -⟩ := Alt.elements_of_operator? hop
    dsimp only at helements
    rw [helements, Element.listNodes, Element.listNodes, Element.listNodes, Element.listNodes,
      List.append_nil, htokens htoken] at hnode
    rcases List.mem_cons.mp hnode with rfl | hnode
    · exact .inl ⟨first, rfl⟩
    · rcases List.mem_cons.mp hnode with rfl | hnode
      · exact .inr ⟨op.token, htoken⟩
      · exact .inl ⟨last, List.mem_singleton.mp hnode⟩

/-- A rule for expressions has no lexer commands. -/
theorem RuleDef.IsExpression.lacksCommands {rule : RuleDef} (h : rule.IsExpression vocabulary) :
    LacksCommands rule.nodes := by
  intro node hnode
  obtain ⟨ref, rfl⟩ | ⟨t, ht⟩ := h.of_mem_nodes hnode
  · rfl
  · cases node <;> first | rfl | cases ht

/-- An operand is no operator. -/
theorem Alt.shape_of_operand? {alt : Alt} {t : Int} (h : alt.operand? vocabulary = some t) {name : String}
    {num : Nat} {shape : AltShape} (hshape : alt.shape name num = .ok shape) :
    shape.isOperator = false := by
  obtain ⟨e, helements, htoken⟩ := Alt.elements_of_operand? h
  have hbegins : alt.beginsWith name = false := by
    unfold beginsWith
    rw [helements]
    exact vocabulary.refersTo_of_tokenOf? htoken name
  unfold Alt.shape at hshape
  rw [hbegins] at hshape
  split at hshape
  · cases hshape
  · rw [if_pos (by rfl)] at hshape
    obtain rfl := Except.ok.inj hshape
    split <;> rfl

/-- An operator is binary. -/
theorem Alt.shape_of_operator? {alt : Alt} {name : String} {num : Nat} {op : Operator}
    (h : alt.operator? vocabulary name num = some op) {shape : AltShape}
    (hshape : alt.shape name num = .ok shape) : shape = .binary := by
  obtain ⟨first, e, last, helements, hfirst, hlast, htoken, -, -⟩ := Alt.elements_of_operator? h
  have hrefersFirst : (Element.ruleRef first).refersTo name = true := beq_iff_eq.mpr hfirst
  have hrefersLast : (Element.ruleRef last).refersTo name = true := beq_iff_eq.mpr hlast
  have hrefers := vocabulary.refersTo_of_tokenOf? htoken name
  have hcounting : alt.lastCounting = 2 := by
    unfold lastCounting
    rw [helements]
    rfl
  have hrefsTo : alt.refsTo name = [0, 2] := by
    unfold refsTo
    rw [helements]
    simp [List.zipIdx, hrefersFirst, hrefersLast, hrefers]
  have hbegins : alt.beginsWith name = true := by
    unfold beginsWith
    rw [helements]
    exact hrefersFirst
  have hends : alt.endsWith name = true := by
    unfold endsWith
    rw [hrefsTo, hcounting]
    rfl
  unfold Alt.shape at hshape
  rw [hbegins, hends, hcounting, hrefsTo] at hshape
  split at hshape
  · cases hshape
  · split at hshape
    · next hno => cases hno
    · split at hshape
      · cases hshape
      · exact (Except.ok.inj hshape).symm

end Shapes

/-! ## Tables -/

section Tables

variable {rule : RuleDef} {vocabulary : Vocabulary}

theorem RuleDef.mem_operators {op : Operator} : op ∈ (rule.operatorTable vocabulary).operators ↔
    ∃ alt, (alt, op.num) ∈ rule.numbered ∧ alt.operator? vocabulary rule.name op.num = some op := by
  refine List.mem_filterMap.trans ⟨?_, fun ⟨alt, hmem, hop⟩ => ⟨_, hmem, hop⟩⟩
  rintro ⟨⟨alt, num⟩, hmem, hop⟩
  obtain ⟨_, _, _, _, _, _, _, rfl, _⟩ := Alt.elements_of_operator? hop
  exact ⟨alt, hmem, hop⟩

theorem RuleDef.mem_primaries {t : Int} : t ∈ (rule.operatorTable vocabulary).primaries ↔
    ∃ alt num, (alt, num) ∈ rule.numbered ∧ alt.operand? vocabulary = some t := by
  refine List.mem_filterMap.trans ⟨?_, fun ⟨alt, num, hmem, ht⟩ => ⟨alt, ?_, ht⟩⟩
  · rintro ⟨alt, hmem, ht⟩
    obtain ⟨i, hi⟩ := List.mem_iff_getElem?.mp hmem
    exact ⟨alt, 1 + i, List.mk_add_mem_zipIdx_iff_getElem?.mpr hi, ht⟩
  · exact List.fst_mem_of_mem_zipIdx hmem

/-- If their tokens are different, operators are told apart by their numbers and tokens. -/
theorem RuleDef.distinct_operatorTable
    (htokens : ((rule.operatorTable vocabulary).operators.map (·.token)).Nodup)
    (hends : ∀ op ∈ (rule.operatorTable vocabulary).operators, op.token ≠ Symbol.eof) :
    (rule.operatorTable vocabulary).Distinct := by
  refine ⟨fun op hop => ?_, fun op hop op' hop' hnum => ?_,
    fun op hop op' hop' htoken => List.inj_on_of_nodup_map htokens hop hop' htoken, hends⟩
  · obtain ⟨alt, hmem, -⟩ := mem_operators.mp hop
    have := List.snd_lt_of_mem_zipIdx hmem
    show op.num ≤ rule.alts.length
    omega
  · obtain ⟨alt, hmem, halt⟩ := mem_operators.mp hop
    obtain ⟨alt', hmem', halt'⟩ := mem_operators.mp hop'
    rw [← hnum] at hmem' halt'
    have hget := (List.mk_mem_zipIdx_iff_le_and_getElem?_sub.mp hmem).2
    have hget' := (List.mk_mem_zipIdx_iff_le_and_getElem?_sub.mp hmem').2
    obtain rfl : alt = alt' := Option.some.inj (hget.symm.trans hget')
    exact Option.some.inj (halt.symm.trans halt')

/-- What hands over an operator or an operand of a rule for expressions. -/
theorem RuleDef.HandsOver.mem_table (hexpression : rule.IsExpression vocabulary) {num : Nat}
    (hnum : 0 < num) {origin : Alt} {shape : AltShape} (h : rule.HandsOver num origin shape) :
    (shape.isOperator = false ∧ ∃ t ∈ (rule.operatorTable vocabulary).primaries,
      origin.operand? vocabulary = some t) ∨
    (shape = .binary ∧ ∃ op ∈ (rule.operatorTable vocabulary).operators,
      origin.operator? vocabulary rule.name num = some op ∧ op.num = num) := by
  have hmem : (origin, num) ∈ rule.numbered :=
    List.mk_mem_zipIdx_iff_le_and_getElem?_sub.mpr ⟨hnum, h.get⟩
  rcases hexpression _ hmem with hsome | hsome
  · obtain ⟨t, ht⟩ := Option.isSome_iff_exists.mp hsome
    exact .inl ⟨Alt.shape_of_operand? ht h.shaped, t, mem_primaries.mpr ⟨_, _, hmem, ht⟩, ht⟩
  · obtain ⟨op, hop⟩ := Option.isSome_iff_exists.mp hsome
    obtain ⟨_, _, _, _, _, _, _, hopnum, _⟩ := Alt.elements_of_operator? hop
    refine .inr ⟨Alt.shape_of_operator? hop h.shaped, op, mem_operators.mpr ⟨origin, ?_⟩, hop, hopnum⟩
    rw [hopnum]
    exact ⟨hmem, hop⟩

end Tables

/-! ## Code -/

namespace ParserModel

namespace Source

section Code

variable (source : Source)

theorem element_of_tokenOf? {e : Element} {t : Int} (h : source.vocabulary.tokenOf? e = some t) :
    source.element none e = [.matchToken t none] := by
  cases e with
  | tokenRef | quotation =>
      rw [element]
      exact congrArg (fun t => [Operation.matchToken t none]) (Option.some.inj h)
  | _ => cases h

theorem mem_alts {code : AltCode} {alts : List Alt} {num : Nat} (h : code ∈ source.alts num alts) :
    ∃ alt ∈ alts, code.ops = source.elements alt.elements := by
  induction alts generalizing num with
  | nil => cases h
  | cons alt alts ih =>
      rw [Source.alts] at h
      rcases List.mem_cons.mp h with rfl | h
      · obtain ⟨elements, options, label, extent, info⟩ := alt
        exact ⟨_, List.mem_cons_self .., rfl⟩
      · obtain ⟨alt', halt', hops⟩ := ih h
        exact ⟨alt', List.mem_cons_of_mem _ halt', hops⟩

theorem exists_mem_alts {alt : Alt} {alts : List Alt} (h : alt ∈ alts) (num : Nat) :
    ∃ code ∈ source.alts num alts, code.ops = source.elements alt.elements := by
  induction alts generalizing num with
  | nil => cases h
  | cons first alts ih =>
      rw [Source.alts]
      rcases List.mem_cons.mp h with rfl | h
      · obtain ⟨elements, options, label, extent, info⟩ := alt
        exact ⟨_, List.mem_cons_self .., rfl⟩
      · obtain ⟨code, hcode, hops⟩ := ih h (num + 1)
        exact ⟨code, List.mem_cons_of_mem _ hcode, hops⟩

/-- A row that shows an operand reads it. -/
theorem isOperand_of_shows {written : RuleDef} {names : List String} {alt : Alt} {num : Nat}
    (h : written.Shows names IsIdle alt num) {e : Element} (hcarried : written.carried num = [e])
    {t : Int} (htoken : source.vocabulary.tokenOf? e = some t) :
    IsOperand t (source.elements alt.elements) := by
  obtain ⟨front, row, helements, hfront, hrenders⟩ := h
  have hbare := hrenders.bare
  rw [hcarried] at hbare
  obtain ⟨e', rest, rfl, he, hrest⟩ := Element.allBare_eq_cons hbare
  obtain rfl : rest = [] := by
    cases rest with
    | nil => rfl
    | cons => cases hrest
  rw [← Vocabulary.tokenOf?_bare, ← he, Vocabulary.tokenOf?_bare] at htoken
  rw [helements]
  clear helements
  unfold IsIdle at hfront
  induction front with
  | nil =>
      rw [List.nil_append, elements, elements, List.append_nil, source.element_of_tokenOf? htoken]
      exact .token
  | cons first front ih =>
      obtain ⟨⟨code, rfl⟩, hrest⟩ := List.forall_mem_cons.mp hfront
      rw [List.cons_append, elements, element]
      exact .action (ih hrest)

/-- A row that shows an operator tests its precedence, reads it and then its last operand. -/
theorem operatorSteps_of_shows {written : RuleDef} {names : List String} {alt : Alt} {num : Nat}
    {op : Operator} (hopnum : op.num = num)
    (hbound : op.nextPrecedence written.alts.length ≤ Text.maxInt32)
    (h : written.Shows names (IsGuardOf (precedenceOf written.alts.length num)) alt num)
    {e : Element} {last : RuleRef} (hcarried : written.carried num = [e, .ruleRef last])
    (hlast : last.name = written.name)
    (htoken : source.vocabulary.tokenOf? e = some op.token)
    (hdemand : written.lastDemand num =
      some (op.assoc.nextPrecedence (precedenceOf written.alts.length num))) :
    source.elements alt.elements = operatorSteps written.name written.alts.length op := by
  obtain ⟨front, row, helements, ⟨code, rfl, htests⟩, hrenders⟩ := h
  obtain ⟨e', rest, rfl, he, hrest⟩ := Element.allBare_eq_cons (hcarried ▸ hrenders.bare)
  obtain ⟨last', rest', rfl, hlast', hrest'⟩ := Element.allBare_eq_cons hrest
  obtain rfl : rest' = [] := by
    cases rest' with
    | nil => rfl
    | cons => cases hrest'
  obtain ⟨ref, rfl, hname⟩ : ∃ ref : RuleRef, last' = .ruleRef ref ∧ ref.name = last.name := by
    cases last' with
    | ruleRef ref => exact ⟨ref, rfl, (RuleRef.mk.inj (Element.ruleRef.inj hlast')).1⟩
    | _ => cases hlast'
  -- the reference is the only one, so it demands what the operator does
  have hrefs : ∀ {e : Element} {ref : RuleRef}, source.vocabulary.tokenOf? e = some op.token →
      ruleRefs (Element.listNodes [e, .ruleRef ref]) = [ref] := by
    intro e ref he
    cases e <;> first | rfl | cases he
  have htoken' : source.vocabulary.tokenOf? e' = some op.token := by
    rw [← Vocabulary.tokenOf?_bare, he, Vocabulary.tokenOf?_bare]
    exact htoken
  have hmarks := hrenders.marks
  rw [RuleDef.marksOf, hdemand, RuleDef.carriedRefs, hcarried, hrefs htoken, hrefs htoken'] at hmarks
  have hvalues : ref.options.values precedenceOption = [toString
      (op.assoc.nextPrecedence (precedenceOf written.alts.length num))] :=
    congrArg RefMark.demands (List.singleton_inj.mp hmarks)
  have hle := op.precedence_le_nextPrecedence written.alts.length
  have hdemands : precedenceIn? ref.options = some (op.nextPrecedence written.alts.length) := by
    rw [precedenceIn?, Options.get?_eq, hvalues, List.head?_cons, Option.bind_some, ← hopnum]
    exact Text.precedence?_toString_of_le hbound
  have htested : precedenceIn? code.options = some (op.precedence written.alts.length) := by
    rw [htests, ← hopnum]
    exact Text.precedence?_toString_of_le (Int.le_trans hle hbound)
  rw [helements, List.cons_append, List.nil_append, elements, elements, elements, elements, element,
    source.element_of_tokenOf? htoken', element, hdemands, hname, hlast]
  simp only [htested]
  rfl

end Code

/-! ## The blocks of the new rule -/

section Blocks

variable {source : Source} {grammar : Grammar} {written next : RuleDef}
  (h : grammar.Unrolls written next) (hoptions : LacksOptions written.nodes)
  (hexpression : written.IsExpression source.vocabulary) (names : List String)

include h

omit hoptions hexpression in
/-- A number is listed for a primary alternative or an operator, and hands over its alternative. -/
theorem handsOver_of_numbered {alt : Alt} {num : Nat} (hmem : (alt, num) ∈ written.numbered) :
    (num ∈ written.primaryNumbers ∧ ∃ shape, written.HandsOver num alt shape ∧
      shape.isOperator = false) ∨
    (num ∈ written.operatorNumbers ∧ ∃ shape, written.HandsOver num alt shape ∧
      shape.isOperator = true) := by
  have hnum : num ∈ written.primaryNumbers ++ written.operatorNumbers := by
    rw [h.once.mem_iff, ← written.map_numbered]
    exact List.mem_map_of_mem hmem
  have horigin : ∀ {origin shape}, written.HandsOver num origin shape → origin = alt := fun hover =>
    Option.some.inj (hover.get.symm.trans (List.mk_mem_zipIdx_iff_le_and_getElem?_sub.mp hmem).2)
  refine (List.mem_append.mp hnum).imp (fun hprimary => ⟨hprimary, ?_⟩)
    fun hoperator => ⟨hoperator, ?_⟩
  · obtain ⟨origin, shape, hover, hshape⟩ := RuleDef.exists_of_mem_primaryNumbers hprimary
    exact ⟨shape, horigin hover ▸ hover, hshape⟩
  · obtain ⟨origin, shape, hover, hshape⟩ := RuleDef.exists_of_mem_operatorNumbers hoperator
    exact ⟨shape, horigin hover ▸ hover, hshape⟩

omit hoptions hexpression in
theorem pos_of_mem_numbers {num : Nat} (hnum : num ∈ written.primaryNumbers ++ written.operatorNumbers) :
    0 < num :=
  (List.mem_range'_1.mp (h.once.mem_iff.mp hnum)).1

include hoptions hexpression

/-- The primary block reads the operands. -/
theorem readsOperands_primaryBlock : ReadsOperands (written.operatorTable source.vocabulary)
    (source.alts 1 (Grammar.demandAny names next).primaryBlock) := by
  have hreads : ∀ {alt : Alt} {num : Nat} {origin : Alt} {shape : AltShape} {t : Int},
      written.Shows names IsIdle alt num → written.HandsOver num origin shape →
      shape.isOperator = false → origin.operand? source.vocabulary = some t →
        IsOperand t (source.elements alt.elements) := by
    intro alt num origin shape t hshows hover hshape ht
    obtain ⟨e, helements, htoken⟩ := Alt.elements_of_operand? ht
    refine source.isOperand_of_shows hshows ?_ htoken
    rw [hover.all hshape]
    exact helements
  constructor
  · intro t ht
    obtain ⟨origin, num, hmem, ht⟩ := RuleDef.mem_primaries.mp ht
    rcases handsOver_of_numbered h hmem with ⟨hnum, shape, hover, hshape⟩ | ⟨-, shape, hover, hshape⟩
    · obtain ⟨alt, halt, hshows⟩ :=
        h.exists_shows_primary hexpression.lacksCommands hoptions names hnum
      obtain ⟨code, hcode, hops⟩ := source.exists_mem_alts halt 1
      exact ⟨code, hcode, hops ▸ hreads hshows hover hshape ht⟩
    · rw [Alt.shape_of_operand? ht hover.shaped] at hshape
      cases hshape
  · intro code hcode
    obtain ⟨alt, halt, hops⟩ := source.mem_alts hcode
    obtain ⟨num, hnum, hshows⟩ :=
      h.shows_of_mem_primary hexpression.lacksCommands hoptions names halt
    obtain ⟨origin, shape, hover, hshape⟩ := RuleDef.exists_of_mem_primaryNumbers hnum
    rcases hover.mem_table hexpression (pos_of_mem_numbers h (List.mem_append_left _ hnum)) with
      ⟨-, t, hmem, ht⟩ | ⟨rfl, -⟩
    · exact ⟨t, hmem, hops ▸ hreads hshows hover hshape ht⟩
    · cases hshape

/-- The loop reads the operators. -/
theorem readsOperators_operatorBlock (hcount : written.alts.length < Text.maxInt32) :
    ReadsOperators written.name (written.operatorTable source.vocabulary)
      (source.alts 1 (Grammar.demandAny names next).operatorBlock) := by
  have hreads : ∀ {alt : Alt} {num : Nat} {origin : Alt} {op : Operator},
      written.Shows names (IsGuardOf (precedenceOf written.alts.length num)) alt num →
      written.HandsOver num origin .binary → 0 < num →
      origin.operator? source.vocabulary written.name num = some op →
        source.elements alt.elements = operatorSteps written.name written.alts.length op := by
    intro alt num origin op hshows hover hpos hop
    obtain ⟨first, e, last, helements, -, hlast, htoken, hopnum, hassoc⟩ := Alt.elements_of_operator? hop
    have hcarried : written.carried num = [e, .ruleRef last] := by
      rw [hover.carried, Alt.carried, helements]
      rfl
    refine source.operatorSteps_of_shows hopnum ?_ hshows hcarried hlast htoken ?_
    · have := op.nextPrecedence_le written.alts.length
      unfold Operator.precedence precedenceOf at this
      unfold Text.maxInt32 at hcount ⊢
      omega
    · rw [hover.lastDemand grammar, AltShape.demand, RuleDef.assocOf_eq, hassoc]
  constructor
  · intro op hop
    obtain ⟨origin, hmem, hop⟩ := RuleDef.mem_operators.mp hop
    rcases handsOver_of_numbered h hmem with ⟨-, shape, hover, hshape⟩ | ⟨hnum, shape, hover, -⟩
    · rw [Alt.shape_of_operator? hop hover.shaped] at hshape
      cases hshape
    · obtain rfl := Alt.shape_of_operator? hop hover.shaped
      obtain ⟨alt, halt, hshows⟩ :=
        h.exists_shows_operator hexpression.lacksCommands hoptions names hnum
      obtain ⟨code, hcode, hops⟩ := source.exists_mem_alts halt 1
      exact ⟨code, hcode, hops.trans
        (hreads hshows hover (pos_of_mem_numbers h (List.mem_append_right _ hnum)) hop)⟩
  · intro code hcode
    obtain ⟨alt, halt, hops⟩ := source.mem_alts hcode
    obtain ⟨num, hnum, hshows⟩ :=
      h.shows_of_mem_operator hexpression.lacksCommands hoptions names halt
    obtain ⟨origin, shape, hover, hshape⟩ := RuleDef.exists_of_mem_operatorNumbers hnum
    have hpos := pos_of_mem_numbers h (List.mem_append_right _ hnum)
    rcases hover.mem_table hexpression hpos with ⟨hno, -⟩ | ⟨rfl, op, hmem, hop, -⟩
    · rw [hno] at hshape
      cases hshape
    · exact ⟨op, hmem, hops.trans (hreads hshows hover hpos hop)⟩

end Blocks

/-- The function of a loop is the code of its primary block and, if there are operators, a loop around
that of the operators. -/
theorem body_of_isLoop (source : Source) (rule : Rule) {definition : RuleDef} (hloop : definition.IsLoop)
    (hoperators : definition.operatorBlock ≠ []) (hfound : source.KeysFound definition.keys) :
    ∃ token token' num d, (source.rule rule definition).body =
        source.block token .block (source.alts 1 definition.primaryBlock) ++
          [.choice (source.choice (some .closure) d
            [⟨num, source.block token' .starBlock (source.alts 1 definition.operatorBlock)⟩])] ∧
      (definition.primaryBlock.length ≠ 1 →
        ∃ d, source.network.decisionAt? token .block = some d) ∧
      (definition.operatorBlock.length ≠ 1 →
        ∃ d, source.network.decisionAt? token' .starBlock = some d) := by
  obtain ⟨block, options, inner, loop, options', label, outer, info, halts, hrest⟩ := hloop
  have hprimary : definition.primaryBlock = block := by
    unfold RuleDef.primaryBlock
    rw [halts]
  rcases hrest with rfl | ⟨greedy, ops, options'', inner', outer', rfl⟩
  · refine absurd ?_ hoperators
    unfold RuleDef.operatorBlock
    rw [halts]
  have hops : definition.operatorBlock = ops := by
    unfold RuleDef.operatorBlock
    rw [halts]
  rw [hops] at hoperators
  rw [hprimary, hops]
  have hkeys := hfound.left
  rw [halts, Alt.listKeys, Alt.listKeys, List.append_nil, Alt.keys, Element.listKeys, Element.listKeys,
    Element.listKeys, List.append_nil] at hkeys
  obtain ⟨d, hd⟩ := hkeys.right.right (outer'.start, .starLoopEntry) (by simp [Suffix.keys])
  refine ⟨inner.start, inner'.start, 1 + if greedy then 0 else 1, d, ?_, fun hmany => ?_, fun hmany => ?_⟩
  · unfold Source.rule RuleDef.alts
    rw [show definition.block.alts = _ from halts, Source.alts, Source.alts, Source.block, Source.alt,
      Source.elements, Source.elements, Source.elements, List.append_nil, Source.element, Source.element]
    exact congrArg (_ ++ ·) (choiceAt_eq hd ..)
  · refine hkeys.left.right (inner.start, .block) ?_
    rw [choiceKeys, if_neg hmany]
    exact List.mem_singleton_self _
  · refine hkeys.right.right (inner'.start, .starBlock) ?_
    have hpos : 0 < ops.length := List.length_pos_iff.mpr hoperators
    have hlength : 1 < ops.length := by omega
    simp [Suffix.keys, hlength]

/-- The function of a loop that stands for a rule for expressions climbs by precedence. -/
theorem climbs_of_unrolls {source : Source} {grammar : Grammar} {written next : RuleDef}
    (h : grammar.Unrolls written next) (hoptions : LacksOptions written.nodes)
    (hexpression : written.IsExpression source.vocabulary) (names : List String)
    (hcount : written.alts.length < Text.maxInt32)
    (hdistinct : (written.operatorTable source.vocabulary).Distinct)
    (hnonempty : (written.operatorTable source.vocabulary).operators ≠ []) {rule : Rule}
    (hfound : source.KeysFound (Grammar.demandAny names next).keys) {model : ParserModel}
    (hfunction : model.function? written.name =
      some (source.rule rule (Grammar.demandAny names next)))
    {a b : Nat} (hlaid : source.Laid (source.rule rule (Grammar.demandAny names next)).body a b)
    (most : Int) :
    ∃ front loop, model.Climbs most .greedy written.name (written.operatorTable source.vocabulary)
      (source.rule rule (Grammar.demandAny names next)) front loop := by
  have hoperands := readsOperands_primaryBlock h hoptions hexpression names
  have hoperators := readsOperators_operatorBlock h hoptions hexpression names hcount
  have hloop := (h.loop.mapOptions (demandingAny names)).1
  rw [← demandAny_eq] at hloop
  generalize Grammar.demandAny names next = definition at *
  obtain ⟨op, hop⟩ := List.exists_mem_of_ne_nil _ hnonempty
  obtain ⟨code, hcode, -⟩ := hoperators.1 op hop
  have hcodes : source.alts 1 definition.operatorBlock ≠ [] := List.ne_nil_of_mem hcode
  have hblock : definition.operatorBlock ≠ [] := fun hnil => by
    rw [hnil] at hcodes
    exact hcodes rfl
  obtain ⟨token, token', num, d, hbody, hprimary, hround⟩ :=
    source.body_of_isLoop rule hloop hblock hfound
  rw [← source.length_alts 1] at hprimary hround
  exact ⟨_, _, climbs hdistinct hprimary hround hoperands hoperators hcodes rfl hfunction hbody hlaid most⟩

end Source

end ParserModel

/-! ## Rules without ranges -/

/-- Marks a range of characters. -/
def Element.range? : Element → Option Unit
  | .range .. => some ()
  | _ => none

theorem traced_range : Traced Element.range? Element.range? where
  unplaced e := by cases e <;> rfl
  copied e := by cases e <;> rfl
  demanding count name precedence e seen := by cases e <;> rfl
  block _ _ _ := rfl
  loop _ _ _ := rfl
  action _ := rfl
  predicate _ := rfl

open ParserModel.Source (RangeFree)

theorem rangeFree_iff {nodes : List Element} : RangeFree nodes ↔ nodes.filterMap Element.range? = [] := by
  rw [List.filterMap_eq_nil_iff]
  refine forall₂_congr fun node _ => ?_
  cases node with
  | suffixed suffix => cases suffix <;> simp [Element.kind, Suffix.kind, Element.range?]
  | labeled isList => cases isList <;> simp [Element.kind, Element.range?]
  | _ => simp [Element.kind, Element.range?]

/-- The loop that stands for a rule without ranges has none. -/
theorem Grammar.Unrolls.rangeFree {grammar : Grammar} {written next : RuleDef}
    (h : grammar.Unrolls written next) (hcommands : LacksCommands written.nodes)
    (hfree : RangeFree written.nodes) (names : List String) :
    RangeFree (demandAny names next).nodes := by
  have hcarried : ∀ num ∈ written.primaryNumbers ++ written.operatorNumbers,
      (Element.listNodes (grammar.rebuilt written num)).filterMap Element.range? = [] := by
    intro num hnum
    obtain ⟨origin, shape, hover⟩ : ∃ origin shape, written.HandsOver num origin shape := by
      rcases List.mem_append.mp hnum with hnum | hnum
      · obtain ⟨origin, shape, hover, -⟩ := RuleDef.exists_of_mem_primaryNumbers hnum
        exact ⟨origin, shape, hover⟩
      · obtain ⟨origin, shape, hover, -⟩ := RuleDef.exists_of_mem_operatorNumbers hnum
        exact ⟨origin, shape, hover⟩
    rw [traced_range.rebuilt grammar hcommands, ← rangeFree_iff]
    exact fun node hnode => hfree node (hover.nodes_subset hnode)
  have hchange : (demandAny names next).nodes.filterMap Element.range? =
      next.nodes.filterMap Element.range? :=
    Alt.filterMap_mapListOptions (fun e s => by cases e <;> rfl) next.alts ()
  rw [rangeFree_iff, hchange, h.loop.views_nodes traced_range.block traced_range.loop, List.flatMap_def,
    List.map_append, h.views_primary traced_range.unplaced traced_range.action,
    h.views_operators traced_range.unplaced traced_range.predicate, ← List.map_append,
    List.flatten_eq_nil_iff]
  exact List.forall_mem_map.mpr hcarried

/-- A rule for expressions has no ranges. -/
theorem RuleDef.IsExpression.rangeFree {rule : RuleDef} {vocabulary : Vocabulary}
    (h : rule.IsExpression vocabulary) : RangeFree rule.nodes := by
  intro node hnode
  obtain ⟨ref, rfl⟩ | ⟨t, ht⟩ := h.of_mem_nodes hnode
  · simp [Element.kind]
  · cases node <;> first | (cases ht; done) | simp [Element.kind]

/-! ## Compilations -/

/-- A rule with an operator is left-recursive. -/
theorem RuleDef.isLeftRecursive_of_operators {rule : RuleDef} {vocabulary : Vocabulary}
    (h : (rule.operatorTable vocabulary).operators ≠ []) : rule.isLeftRecursive = true := by
  obtain ⟨op, hop⟩ := List.exists_mem_of_ne_nil _ h
  obtain ⟨alt, hmem, hop⟩ := RuleDef.mem_operators.mp hop
  obtain ⟨first, e, last, helements, hfirst, -⟩ := Alt.elements_of_operator? hop
  refine List.any_eq_true.mpr ⟨alt, List.fst_mem_of_mem_zipIdx hmem, ?_⟩
  unfold Alt.beginsWith
  rw [helements]
  exact beq_iff_eq.mpr hfirst

/-- What has become of a left-recursive rule in a compilation. -/
theorem Compilation.Made.exists_loop {compilation : Compilation} {options : CompileOptions}
    {library : Library} {file text : String} {grammar : Grammar} {report : Report}
    (h : compilation.Made options grammar)
    (hgather : Grammar.gather library file text = (some grammar, report))
    (himports : grammar.source.imports = []) (hwritable : grammar.Writable) {rule : Rule}
    (hrule : rule ∈ grammar.parserRules) {written : RuleDef}
    (hwritten : grammar.definition? rule = some written) (hrecursive : written.isLeftRecursive = true) :
    ∃ rule' next, compilation.grammar.rule? rule.name = some rule' ∧
      rule' ∈ compilation.grammar.parserRules ∧
      compilation.grammar.definition? rule' =
        some (Grammar.demandAny grammar.leftRecursiveRules next) ∧
      grammar.Unrolls written next ∧ written.name = rule.name := by
  obtain ⟨hmem, hparser⟩ := List.mem_filter.mp hrule
  replace hparser : rule.isLexerRule = false := by simpa using hparser
  obtain ⟨unrolled, hunrolled, heliminate⟩ :=
    Grammar.unrolled_eliminate hgather himports hwritable h.eliminated
  have hnodup := Grammar.nodup_gather hgather
  have hfound := Grammar.rule?_of_mem hnodup hmem
  have hname := (Grammar.mem_leftRecursiveRules hnodup).mpr
    ⟨rule, written, hfound, hwritten, hparser, hrecursive⟩
  obtain ⟨next, hnext, hunrolls, hwrittenName⟩ :=
    hunrolled.exists_next (Grammar.tied_gather hgather) hname hfound hwritten
  obtain ⟨rule', hrule', hplace⟩ : ∃ rule', unrolled.rule? rule.name = some rule' ∧
      rule'.defIndex = rule.defIndex := by
    have hsame := hunrolled.rule?_eq rule.name
    rw [hfound] at hsame
    exact Option.map_eq_some_iff.mp hsame
  have hgrammar : compilation.grammar = { unrolled with source := { unrolled.source with
      rules := unrolled.source.rules.map (Grammar.demandAny grammar.leftRecursiveRules) } } := by
    rw [h.grammar, heliminate]
  refine ⟨rule', next, by rw [hgrammar]; exact hrule', ?_, ?_, hunrolls, hwrittenName⟩
  · rw [hgrammar]
    refine List.mem_filter.mpr ⟨List.mem_of_find?_eq_some hrule', ?_⟩
    rw [Rule.isLexerRule, Grammar.name_of_rule? hrule']
    simpa [Rule.isLexerRule] using hparser
  · rw [hgrammar]
    show (unrolled.source.rules.map _)[rule'.defIndex]? = _
    rw [List.getElem?_map, hplace, hnext]
    rfl

/-- Once a grammar without imports has been compiled, the function of a rule for expressions, entered
without a precedence, reads every expression when prediction is greedy, and in one way only. What it
reads is grouped in the one way in which every operator is where its number and its associativity allow.
No operator may be the end of the input, and the left-recursive rules have to keep their names. -/
theorem reads_expressions {options : CompileOptions} {library : Library} {file text : String}
    {compilation : Compilation} (hcompile : compile options library file text = .ok compilation)
    (hsize : compilation.vocabulary.nextType ≤ Text.maxInt32) {grammar : Grammar} {report : Report}
    (hgather : Grammar.gather library file text = (some grammar, report))
    (himports : grammar.source.imports = []) (hwritable : grammar.Writable) {model : ParserModel}
    (hmodel : compilation.model = some model) {rule : Rule} (hrule : rule ∈ grammar.parserRules)
    {written : RuleDef} (hwritten : grammar.definition? rule = some written)
    (hcount : written.alts.length < Text.maxInt32) (hoptions : LacksOptions written.nodes)
    (hexpression : written.IsExpression compilation.vocabulary) {table : OperatorTable}
    (htable : table = written.operatorTable compilation.vocabulary) (hnonempty : table.operators ≠ [])
    (htokens : (table.primaries ++ table.operators.map (·.token)).Nodup)
    (hends : ∀ op ∈ table.operators, op.token ≠ Symbol.eof) :
    ∃ function, model.function? rule.name = some function ∧ ∀ w, table.Expression w →
      ∃ tree : OperatorTree, tree.Grouped table ∧ tree.tokens = w ∧
        (∀ other : OperatorTree, other.Grouped table → other.tokens = w → other = tree) ∧
        ∀ j trace, model.Runs compilation.vocabulary.maxType .greedy w 0 function.body 0 j trace ↔
          j = w.length ∧ trace = tree.trace rule.name := by
  subst htable
  obtain ⟨collected, report', hcollected, hmade⟩ := made_of_compile hcompile
  obtain rfl : grammar = collected :=
    Option.some.inj ((Prod.mk.inj (hgather.symm.trans hcollected)).1)
  obtain ⟨g, hparse, hgrammar⟩ := Grammar.exists_parse_of_gather hgather himports
  have hapart : compilation.grammar.ParserApart := by
    rw [hmade.grammar, hgrammar]
    exact ((Grammar.apart_collect hparse).eliminate _).parser
  obtain ⟨network, hparser, hsource⟩ := Option.map_eq_some_iff.mp (hmade.model ▸ hmodel)
  obtain ⟨made, hdecided⟩ := decided_of_apart hcompile hapart hsize hparser
  obtain ⟨rule', next, hrule', hmem, hdefinition, hunrolls, hname⟩ := hmade.exists_loop hgather himports
    hwritable hrule hwritten (RuleDef.isLeftRecursive_of_operators hnonempty)
  obtain ⟨start, stop, -, -, hlaid⟩ := hdecided.laid (analyzed_of_compile hcompile hsize hparser) hmem
    hdefinition (hunrolls.rangeFree hexpression.lacksCommands hexpression.rangeFree _)
  have hsource : model = (compilation.source options network).model := hsource.symm
  have hdistinct := RuleDef.distinct_operatorTable (List.Nodup.of_append_right htokens) hends
  have hkind : isTokenName rule.name = false := by
    simpa [Rule.isLexerRule] using (List.mem_filter.mp hrule).2
  have hfunction : model.function? rule.name = some ((compilation.source options network).rule rule'
      (Grammar.demandAny grammar.leftRecursiveRules next)) := by
    rw [hsource, ParserModel.Source.function?_model hdecided.steady, Dialect.rule?_eq, if_pos]
    · exact (congrArg (Option.bind · _) hrule').trans (congrArg (Option.map _) hdefinition)
    · rw [hkind]
      rfl
  rw [← hname] at hfunction ⊢
  obtain ⟨front, loop, hclimbs⟩ := ParserModel.Source.climbs_of_unrolls hunrolls hoptions hexpression
    grammar.leftRecursiveRules hcount hdistinct hnonempty
    (fun key hkey => hdecided.found_of_key hmem hdefinition hkey) hfunction hlaid
    compilation.vocabulary.maxType
  exact ⟨_, hfunction, fun w hw => hclimbs.runs_iff hdistinct Policy.greedy_unique hw⟩

/-- An operator that is grouped to the left, and a later one that is grouped to the right. -/
theorem reads_expressions_grouped :
    ∃ (compilation : Compilation) (model : ParserModel) (function : RuleFunction),
      compile {} .empty "T.g" "parser grammar T; e : e B e | <assoc=right> e C e | Y | Z ;" =
        .ok compilation ∧
      compilation.model = some model ∧ model.function? "e" = some function ∧
      ∀ j trace, model.Runs compilation.vocabulary.maxType .greedy [1, 3, 2, 4, 1, 4, 2] 0 function.body
        0 j trace ↔ j = 7 ∧ trace = OperatorTree.trace "e"
          (.node (.node (.operand 1) ⟨1, 3, .left⟩ (.operand 2)) ⟨2, 4, .right⟩
            (.node (.operand 1) ⟨2, 4, .right⟩ (.operand 2))) := by
  have hgood : (Grammar.gather .empty "T.g"
      "parser grammar T; e : e B e | <assoc=right> e C e | Y | Z ;").1.any fun grammar =>
        (grammar.rule? "e").any fun rule => (grammar.definition? rule).any fun written =>
          (compile {} .empty "T.g"
            "parser grammar T; e : e B e | <assoc=right> e C e | Y | Z ;").toOption.any fun compilation =>
              compilation.parser.isSome && decide (grammar.source.imports = [] ∧
                compilation.vocabulary.nextType ≤ Text.maxInt32 ∧ rule.isLexerRule = false ∧
                (∀ rule ∈ grammar.source.rules, LacksOptions rule.nodes) ∧
                (∀ rule ∈ grammar.source.rules, rule.KeepsName) ∧
                written.IsExpression compilation.vocabulary ∧
                written.operatorTable compilation.vocabulary =
                  ⟨4, [⟨1, 3, .left⟩, ⟨2, 4, .right⟩], [1, 2]⟩) := by
    decide +kernel
  obtain ⟨grammar, report, hgather, hgood⟩ := Grammar.exists_gather_of_any hgood
  obtain ⟨rule, hrule, hgood⟩ := (Option.any_eq_true _ _).mp hgood
  obtain ⟨written, hwritten, hgood⟩ := (Option.any_eq_true _ _).mp hgood
  obtain ⟨compilation, hcompile, hgood⟩ := (Option.any_eq_true _ _).mp hgood
  rw [Bool.and_eq_true] at hgood
  obtain ⟨network, hparser⟩ := Option.isSome_iff_exists.mp hgood.1
  obtain ⟨himports, hsize, hkind, hoptions, hnames, hexpression, htable⟩ :=
    of_decide_eq_true hgood.2
  have hcompile := ok_of_toOption hcompile
  obtain ⟨collected, report', -, hmade⟩ := made_of_compile hcompile
  have hmodel := hmade.model
  rw [hparser] at hmodel
  have hname : rule.name = "e" := Grammar.name_of_rule? hrule
  have hcount : written.alts.length = 4 := congrArg OperatorTable.count htable
  have hwrittenOptions := hoptions written (List.mem_of_getElem? hwritten)
  obtain ⟨function, hfunction, hreads⟩ := reads_expressions hcompile hsize hgather himports
    ⟨fun rule hrule _ _ => (hoptions rule hrule).unquotedIn _,
      fun rule hrule _ _ => hnames rule hrule⟩ hmodel
    (List.mem_filter.mpr ⟨List.mem_of_find?_eq_some hrule, by rw [hkind]; rfl⟩) hwritten
    (by rw [hcount]; decide) hwrittenOptions hexpression htable.symm
    (by decide) (by decide) (by decide)
  have hchain (t op w) :=
    @OperatorTable.Expression.chain ⟨4, [⟨1, 3, .left⟩, ⟨2, 4, .right⟩], [1, 2]⟩ t op w
  obtain ⟨tree, -, -, hunique, hruns⟩ := hreads [1, 3, 2, 4, 1, 4, 2]
    (hchain 1 ⟨1, 3, .left⟩ _ (by decide) (by decide)
      (hchain 2 ⟨2, 4, .right⟩ _ (by decide) (by decide)
        (hchain 1 ⟨2, 4, .right⟩ _ (by decide) (by decide) (.operand (by decide)))))
  rw [hname] at hfunction hruns
  refine ⟨compilation, _, function, hcompile, hmodel, hfunction, ?_⟩
  have hinner : ∀ op ∈ [⟨1, 3, .left⟩, ⟨2, 4, .right⟩],
      OperatorTree.Grouped ⟨4, [⟨1, 3, .left⟩, ⟨2, 4, .right⟩], [1, 2]⟩
        (.node (.operand 1) op (.operand 2)) :=
    fun op hop => .node hop (.operand (by decide)) (.operand (by decide)) nofun nofun
  rw [hunique (.node (.node (.operand 1) ⟨1, 3, .left⟩ (.operand 2)) ⟨2, 4, .right⟩
    (.node (.operand 1) ⟨2, 4, .right⟩ (.operand 2))) ?_ rfl]
  · exact hruns
  · refine .node (by decide) (hinner _ (by decide)) (hinner _ (by decide)) ?_ ?_
    · rintro _ ⟨⟩
      decide
    · rintro _ ⟨⟩
      decide

end GrammarCompiler
