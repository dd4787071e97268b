import GrammarCompiler.Proofs.Grammar.References
import GrammarCompiler.Proofs.Model.Layout
import GrammarCompiler.Proofs.Network.Readings

/-!
# What a model reads

The steps of a model that read or call are those of the elements of its rules, in order
(`reads_model`): no construct is left out, since the network has a decision about each of them.

So nothing that a grammar reads is lost on the way to its networks and its model
(`nothing_lost`), but for two kinds of elements: ranges, for which a model has no step, and
references to rules of the other kind.
-/

namespace GrammarCompiler

mutual
/-- The steps that read or call in a step, without their labels. -/
def Operation.reads : Operation → List Operation
  | .choice choice => choice.reads
  | .matchToken type _ => [.matchToken type none]
  | .matchSet set invert => [.matchSet set invert]
  | .wildcard _ => [.wildcard none]
  | .invoke rule precedence _ => [.invoke rule precedence none]
  | .action _ | .predicate _ | .precedence _ => []

def Operation.listReads : List Operation → List Operation
  | [] => []
  | op :: ops => op.reads ++ Operation.listReads ops

def Choice.reads : Choice → List Operation
  | ⟨_, _, alts, _⟩ => AltCode.listReads alts

def AltCode.reads : AltCode → List Operation
  | ⟨_, ops⟩ => Operation.listReads ops

def AltCode.listReads : List AltCode → List Operation
  | [] => []
  | alt :: alts => alt.reads ++ AltCode.listReads alts
end

namespace Operation

theorem listReads_append (ops ops' : List Operation) :
    listReads (ops ++ ops') = listReads ops ++ listReads ops' := by
  induction ops with
  | nil => rfl
  | cons op ops ih => rw [List.cons_append, listReads, ih, listReads, List.append_assoc]

theorem listReads_choice (choice : Choice) :
    listReads [.choice choice] = AltCode.listReads choice.alts := by
  cases choice
  rw [listReads, listReads, List.append_nil, reads, Choice.reads]

end Operation

namespace AltCode

theorem reads_eq (alt : AltCode) : alt.reads = Operation.listReads alt.ops := by
  cases alt
  rfl

theorem listReads_renumber (f : Nat → Nat) (alts : List AltCode) :
    listReads (alts.map fun alt => { alt with num := f alt.num }) = listReads alts := by
  induction alts with
  | nil => rfl
  | cons alt alts ih =>
      rw [List.map_cons, listReads, ih, listReads, reads_eq, reads_eq]

end AltCode

namespace ParserModel

def reads (model : ParserModel) : List Operation :=
  model.rules.flatMap fun function => Operation.listReads function.body

namespace Source

/-- What is read or called for an element without parts. A model has no step for a range. -/
def readsOf (source : Source) : Element → List Operation
  | .ruleRef r => [.invoke r.name (Network.precedenceIn? r.options) none]
  | .tokenRef name _ _ => [.matchToken ((source.vocabulary.type? name).getD Symbol.invalid) none]
  | .quotation literal =>
    [.matchToken ((source.vocabulary.literalType? literal.value).getD Symbol.invalid) none]
  | .wildcard _ _ => [.wildcard none]
  | .set elements _ => [.matchSet (source.testSet elements) false]
  | .not operand _ => [.matchSet (source.operandSet operand) true]
  | _ => []

/-- There is a decision about each of some constructs. -/
def Knows (source : Source) (keys : List (Nat × DecisionSite)) : Prop :=
  ∀ key ∈ keys, (source.network.decisionAt? key.1 key.2).isSome

section Reads

variable {source : Source}

theorem Knows.left {keys keys' : List (Nat × DecisionSite)} (h : source.Knows (keys ++ keys')) :
    source.Knows keys :=
  fun key hkey => h key (List.mem_append_left _ hkey)

theorem Knows.right {keys keys' : List (Nat × DecisionSite)} (h : source.Knows (keys ++ keys')) :
    source.Knows keys' :=
  fun key hkey => h key (List.mem_append_right _ hkey)

theorem reads_choiceAt {token : Nat} {site : DecisionSite}
    (h : (source.network.decisionAt? token site).isSome) (suffix : Option Suffix)
    (alts : List AltCode) :
    Operation.listReads (source.choiceAt token site suffix alts) = AltCode.listReads alts := by
  obtain ⟨d, hd⟩ := Option.isSome_iff_exists.mp h
  unfold choiceAt
  rw [hd]
  exact Operation.listReads_choice _

theorem reads_block {token : Nat} {site : DecisionSite} {alts : List AltCode}
    (h : 1 < alts.length → (source.network.decisionAt? token site).isSome) :
    Operation.listReads (source.block token site alts) = AltCode.listReads alts := by
  match alts with
  | [] =>
      unfold block choiceAt
      dsimp only
      split
      · exact Operation.listReads_choice _
      · rfl
  | [alt] =>
      rw [AltCode.listReads, AltCode.listReads, List.append_nil, AltCode.reads_eq]
      rfl
  | alt :: alt' :: alts => exact reads_choiceAt (h (by simp)) ..

theorem reads_loopBody {token : Nat} {site : DecisionSite} {alts : List AltCode}
    (h : 1 < alts.length → (source.network.decisionAt? token site).isSome) (num : Nat) :
    AltCode.listReads (source.loopBody token site num alts) = AltCode.listReads alts := by
  unfold loopBody
  rw [AltCode.listReads, AltCode.listReads, List.append_nil, AltCode.reads_eq, reads_block h]

theorem reads_suffixed {suffix : Suffix} {token first : Nat} {alts : List AltCode}
    (h : source.Knows (suffix.keys token first alts.length)) (greedy : Bool) :
    Operation.listReads (source.suffixed suffix greedy token first alts) =
      AltCode.listReads alts := by
  unfold suffixed
  cases suffix with
  | optional =>
      dsimp only
      rw [reads_choiceAt (h _ (List.mem_singleton_self _)),
        AltCode.listReads_renumber (· + if greedy then 0 else 1)]
  | closure =>
      dsimp only
      rw [reads_choiceAt (h.right _ (List.mem_singleton_self _)), reads_loopBody fun hmore => ?_]
      refine h.left (token, .starBlock) ?_
      rw [if_pos hmore]
      exact List.mem_singleton_self _
  | positiveClosure =>
      dsimp only
      rw [reads_choiceAt (h.right _ (List.mem_singleton_self _)), reads_loopBody fun hmore => ?_]
      refine h.left (token, .plusBlock) ?_
      rw [if_pos hmore]
      exact List.mem_singleton_self _

mutual
/-- The steps of an element read what its parts read, in order. -/
theorem reads_element : ∀ (e : Element) (label : Option String), source.Knows e.keys →
    Operation.listReads (source.element label e) = e.leaves.flatMap source.readsOf
  | .block alts options extent, label, h => by
      rw [Source.element, Element.leaves, reads_block, reads_alts alts 1 h.left]
      intro hmore
      refine h.right (extent.start, .block) ?_
      rw [length_alts] at hmore
      rw [choiceKeys, if_neg (Nat.ne_of_gt hmore)]
      exact List.mem_singleton_self _
  | .suffixed suffix greedy inner extent, label, h => by
      rw [Element.keys_suffixed] at h
      rw [Element.leaves]
      by_cases hblock : ∃ alts options x, inner = .block alts options x
      · obtain ⟨alts, options, x, rfl⟩ := hblock
        rw [Source.element, Element.leaves, reads_suffixed, reads_alts alts 1 h.left]
        rw [length_alts]
        exact h.right
      · have hno : ∀ alts options x, inner = .block alts options x → False :=
          fun alts options x h => hblock ⟨alts, options, x, h⟩
        have hkeys : inner.innerKeys = inner.keys ∧ inner.altCount = 1 := by
          cases inner with
          | block alts options x => exact (hno alts options x rfl).elim
          | _ => exact ⟨rfl, rfl⟩
        rw [hkeys.1, hkeys.2] at h
        rw [Source.element, reads_suffixed h.right, AltCode.listReads, AltCode.listReads,
          List.append_nil, AltCode.reads_eq, reads_element inner none h.left]
        exact hno
  | .labeled _ name _ inner _, label, h => by
      rw [Source.element, Element.leaves, reads_element inner _ h]
  | .predicate code, label, h => by
      rw [Source.element]
      split <;> rfl
  | .ruleRef _, _, _ | .tokenRef _ _ _, _, _ | .quotation _, _, _ | .range _ _ _, _, _
  | .wildcard _ _, _, _ | .not _ _, _, _ | .set _ _, _, _ | .action _, _, _ | .command _ _ _, _, _
  | .epsilon _, _, _ => by
      rw [Source.element]
      rfl

theorem reads_elements : ∀ es : List Element, source.Knows (Element.listKeys es) →
    Operation.listReads (source.elements es) = (Element.listLeaves es).flatMap source.readsOf
  | [], _ => by
      rw [Source.elements]
      rfl
  | e :: es, h => by
      rw [Source.elements, Operation.listReads_append, reads_element e none h.left,
        reads_elements es h.right, Element.listLeaves, List.flatMap_append]

theorem reads_alts : ∀ (alts : List Alt) (num : Nat), source.Knows (Alt.listKeys alts) →
    AltCode.listReads (source.alts num alts) = (Alt.listLeaves alts).flatMap source.readsOf
  | [], num, _ => by
      rw [Source.alts]
      rfl
  | ⟨elements, _, _, _, _⟩ :: alts, num, h => by
      rw [Source.alts, AltCode.listReads, reads_alts alts (num + 1) h.right, Source.alt,
        AltCode.reads_eq, reads_elements elements h.left, Alt.listLeaves, List.flatMap_append]
      rfl
end

/-- The function of a rule reads what its definition reads. -/
theorem reads_rule (rule : Rule) {definition : RuleDef} (h : source.Knows definition.keys) :
    Operation.listReads (source.rule rule definition).body =
      definition.leaves.flatMap source.readsOf := by
  unfold Source.rule
  rw [reads_block, reads_alts definition.alts 1 h.left]
  · rfl
  · intro hmore
    refine h.right (definition.block.extent.start, .ruleBlock) ?_
    rw [length_alts] at hmore
    rw [choiceKeys, if_neg (Nat.ne_of_gt hmore)]
    exact List.mem_singleton_self _

def ruleReads (source : Source) (rule : Rule) : List Operation :=
  (source.grammar.definition? rule).toList.flatMap fun definition =>
    definition.leaves.flatMap source.readsOf

/-- A model reads what the rules of its grammar read, in their order. -/
theorem reads_model (h : ∀ rule ∈ source.grammar.parserRules, ∀ definition,
      source.grammar.definition? rule = some definition → source.Knows definition.keys) :
    source.model.reads = source.grammar.parserRules.flatMap source.ruleReads := by
  unfold ParserModel.reads Source.model
  dsimp only
  generalize source.grammar.parserRules = rules at h
  induction rules with
  | nil => rfl
  | cons rule rules ih =>
      obtain ⟨hrule, hrules⟩ := List.forall_mem_cons.mp h
      rw [List.flatMap_cons, ← ih hrules]
      unfold ruleReads
      cases hdefinition : source.grammar.definition? rule with
      | none =>
          rw [List.filterMap_cons_none (by rw [hdefinition]; rfl)]
          rfl
      | some definition =>
          rw [List.filterMap_cons_some (by rw [hdefinition]; rfl), List.flatMap_cons,
            reads_rule rule (hrule definition hdefinition), Option.toList_some,
            List.flatMap_singleton]

end Reads

end Source

end ParserModel

/-! ## Compilations -/

mutual
theorem Element.leaves_subset_nodes : ∀ e : Element, e.leaves ⊆ e.nodes
  | .block alts _ _ => List.subset_cons_of_subset _ (Alt.listLeaves_subset_nodes alts)
  | .suffixed _ _ inner _ | .labeled _ _ _ inner _ =>
      List.subset_cons_of_subset _ (Element.leaves_subset_nodes inner)
  | .not _ _ | .set _ _ => List.cons_subset.mpr ⟨List.mem_cons_self, List.nil_subset _⟩
  | .ruleRef _ | .tokenRef _ _ _ | .quotation _ | .range _ _ _ | .wildcard _ _ | .action _
  | .predicate _ | .command _ _ _ | .epsilon _ => List.Subset.refl _

theorem Element.listLeaves_subset_nodes : ∀ es : List Element,
    Element.listLeaves es ⊆ Element.listNodes es
  | [] => List.Subset.refl _
  | e :: es => List.append_subset.mpr
      ⟨List.subset_append_of_subset_left _ (Element.leaves_subset_nodes e),
        List.subset_append_of_subset_right _ (Element.listLeaves_subset_nodes es)⟩

theorem Alt.listLeaves_subset_nodes : ∀ as : List Alt, Alt.listLeaves as ⊆ Alt.listNodes as
  | [] => List.Subset.refl _
  | ⟨elements, _, _, _, _⟩ :: as => List.append_subset.mpr
      ⟨List.subset_append_of_subset_left _ (Element.listLeaves_subset_nodes elements),
        List.subset_append_of_subset_right _ (Alt.listLeaves_subset_nodes as)⟩
end

mutual
theorem Element.formed_leaves : ∀ e : Element, e.isFormed = true →
    ∀ leaf ∈ e.leaves, leaf.isFormed = true
  | .block alts _ _, h => by
      rw [Element.isFormed, Bool.and_eq_true] at h
      exact Alt.formed_listLeaves alts h.2
  | .suffixed _ _ inner _, h | .labeled _ _ _ inner _, h => Element.formed_leaves inner h
  | .not _ _, h | .set _ _, h | .ruleRef _, h | .tokenRef _ _ _, h | .quotation _, h
  | .range _ _ _, h | .wildcard _ _, h | .action _, h | .predicate _, h | .command _ _ _, h
  | .epsilon _, h => fun _ hleaf => List.mem_singleton.mp hleaf ▸ h

theorem Element.formed_listLeaves : ∀ es : List Element, Element.listFormed es = true →
    ∀ leaf ∈ Element.listLeaves es, leaf.isFormed = true
  | [], _ => nofun
  | e :: es, h => by
      rw [Element.listFormed, Bool.and_eq_true] at h
      exact List.forall_mem_append.mpr
        ⟨Element.formed_leaves e h.1, Element.formed_listLeaves es h.2⟩

theorem Alt.formed_listLeaves : ∀ as : List Alt, Alt.listFormed as = true →
    ∀ leaf ∈ Alt.listLeaves as, leaf.isFormed = true
  | [], _ => nofun
  | ⟨elements, _, _, _, _⟩ :: as, h => by
      rw [Alt.listFormed, Bool.and_eq_true] at h
      exact List.forall_mem_append.mpr
        ⟨Element.formed_listLeaves elements h.1, Alt.formed_listLeaves as h.2⟩
end

/-- What stands for an element in a model calls a rule if the element does. Only a range is read by
a network and not by its model. -/
theorem ParserModel.Source.read_of_readings (source : Source) {scope : Network.Scope}
    {starts : Array Nat} {e : Element} (hrange : e.kind ≠ .range)
    (h : scope.readings starts e ≠ []) :
    ∃ op, source.readsOf e = [op] ∧
      op.callee?.isSome = (Dialect.calls? .parser e).isSome := by
  cases e with
  | range => exact absurd rfl hrange
  | ruleRef | tokenRef | quotation | wildcard | set | not => exact ⟨_, rfl, rfl⟩
  | _ => exact absurd rfl h

/-- References in rules of tokens are to tokens, if no rule of the parser is named there. -/
theorem Grammar.Refers.callee {grammar : Grammar} (h : grammar.Refers []) (hsteady : grammar.Steady)
    {kind : NetworkKind}
    (hlexer : kind = .lexer → ∀ rule ∈ grammar.lexerRules, ∀ definition,
      grammar.definition? rule = some definition → ∀ e ∈ definition.leaves, e.kind ≠ .ruleRef) :
    ∀ rule ∈ Network.rulesOf grammar kind, ∀ definition,
      grammar.definition? rule = some definition → ∀ e ∈ definition.leaves, ∀ name precedence,
        Dialect.calls? kind e = some (name, precedence) → ∃ callee,
          grammar.rule? name = some callee ∧ callee.isLexerRule = (kind == .lexer) := by
  intro rule hrule definition hdefinition e he name precedence hcall
  have hmem : rule ∈ grammar.rules := by
    cases kind <;> exact List.mem_of_mem_filter hrule
  have hlexerRule : rule.isLexerRule = (kind == .lexer) := by
    cases kind with
    | lexer => exact (List.mem_filter.mp hrule).2
    | parser => exact Bool.not_eq_true' _ ▸ (List.mem_filter.mp hrule).2
  have hformed := hsteady.formed definition (List.mem_of_getElem? hdefinition)
  rw [RuleDef.isFormed, Bool.and_eq_true] at hformed
  replace hformed := Alt.formed_listLeaves _ hformed.2 e he
  have hnode : e ∈ definition.nodes := Alt.listLeaves_subset_nodes _ he
  obtain ⟨href, htoken⟩ : e.refName? rule.isLexerRule = some name ∧
      isTokenName name = (kind == .lexer) := by
    rw [hlexerRule]
    cases e with
    | ruleRef r =>
        obtain ⟨rfl, -⟩ := Prod.mk.inj (Option.some.inj hcall)
        rw [Element.isFormed, Bool.not_eq_true'] at hformed
        cases kind with
        | lexer => exact absurd rfl (hlexer rfl rule hrule definition hdefinition _ he)
        | parser => exact ⟨rfl, hformed⟩
    | tokenRef token options extent =>
        rw [Dialect.calls?] at hcall
        split at hcall
        · next hkind =>
            obtain ⟨rfl, -⟩ := Prod.mk.inj (Option.some.inj hcall)
            subst hkind
            exact ⟨rfl, hformed⟩
        · cases hcall
    | _ => cases hcall
  have hrefers := h rule hmem definition hdefinition name (List.mem_filterMap.mpr ⟨e, hnode, href⟩)
  obtain ⟨callee, hcallee⟩ := Option.isSome_iff_exists.mp (hrefers.resolve_right List.not_mem_nil)
  refine ⟨callee, hcallee, ?_⟩
  unfold Rule.isLexerRule
  rw [Grammar.name_of_rule? hcallee, htoken]

/-- In a grammar that compiles nothing is lost. Every reference in its networks calls the rule it
names, and its model has a step for all that its parser reads, but for ranges. What is in the way
are references to rules of the parser in rules of tokens, and rules that came back under another
name when left recursion was eliminated. -/
theorem nothing_lost {options : CompileOptions} {library : Library} {file text : String}
    {compilation : Compilation} (hcompile : compile options library file text = .ok compilation)
    (hsize : compilation.vocabulary.nextType ≤ Text.maxInt32)
    (hkept : ∀ name ∈ compilation.eliminated, (compilation.grammar.rule? name).isSome)
    (hlexer : ∀ rule ∈ compilation.grammar.lexerRules, ∀ definition,
      compilation.grammar.definition? rule = some definition → ∀ e ∈ definition.leaves,
        e.kind ≠ .ruleRef) :
    (∀ network, compilation.lexer = some network →
      network.Complete compilation.grammar compilation.vocabulary .lexer) ∧
    ∀ network, compilation.parser = some network →
      network.Complete compilation.grammar compilation.vocabulary .parser ∧
      ∃ model, compilation.model = some model ∧
        model.reads =
          compilation.grammar.parserRules.flatMap (compilation.source options network).ruleReads ∧
        ∀ rule ∈ compilation.grammar.parserRules, ∀ definition,
          compilation.grammar.definition? rule = some definition → ∀ e ∈ definition.leaves,
            e.kind ≠ .range →
            (Network.scopeOf compilation.grammar compilation.vocabulary .parser rule
              definition).readings network.ruleStarts e ≠ [] →
            ∃ op, (compilation.source options network).readsOf e = [op] ∧
              op.callee?.isSome = (Dialect.calls? .parser e).isSome := by
  obtain ⟨collected, report, hgather, hmade⟩ := made_of_compile hcompile
  have hv : compilation.vocabulary.Fits := by
    rw [hmade.vocabulary] at hsize ⊢
    exact ((Vocabulary.below_ofGrammar _).fits hsize).1
  have hsteady : compilation.grammar.Steady := by
    rw [hmade.grammar]
    exact (Grammar.Built.eliminated _ (.gathered hgather)).steady
  have hrefers := hmade.refers (Grammar.steady_gather hgather) hkept
  refine ⟨fun network hnetwork => ?_, fun network hnetwork => ?_⟩
  · have hlexerNetwork := hmade.lexer
    rw [hnetwork] at hlexerNetwork
    split at hlexerNetwork
    · cases hlexerNetwork
    · obtain rfl := Option.some.inj hlexerNetwork
      exact Network.complete_ofGrammar hsteady.numbered (hrefers.callee hsteady fun _ => hlexer)
  · obtain ⟨hparser, -, -⟩ := hmade.look (.gathered hgather) hv hnetwork
    have hmodel : compilation.model = some (compilation.source options network).model := by
      rw [hmade.model, hnetwork]
      rfl
    refine ⟨?_, _, hmodel, ?_, ?_⟩
    · rw [hparser]
      exact Network.complete_ofGrammar hsteady.numbered (hrefers.callee hsteady nofun)
    · refine ParserModel.Source.reads_model fun rule hrule definition hdefinition key hkey => ?_
      show (network.decisionAt? key.1 key.2).isSome
      rw [hparser]
      exact Network.known_ofGrammar hsteady.numbered hv hrule hdefinition key hkey
    · exact fun rule _ definition _ e _ hrange hreads =>
        (compilation.source options network).read_of_readings hrange hreads

/-- A rule that is left-recursive, with a negation, and a token rule that refers to another. -/
theorem nothing_lost_precedence :
    ∃ (compilation : Compilation) (lexer parser : Network) (model : ParserModel),
      compile {} .empty "T.g" "grammar T; e : e X e | ~Y ; fragment B : 'b' A ; fragment A : 'a' ;" =
        .ok compilation ∧ compilation.eliminated = ["e"] ∧
      compilation.lexer = some lexer ∧ compilation.parser = some parser ∧
      compilation.model = some model ∧
      lexer.readings = [.atom 0 98, .rule 3 1 0 0, .atom 0 97] ∧
      lexer.Complete compilation.grammar compilation.vocabulary .lexer ∧
      parser.Complete compilation.grammar compilation.vocabulary .parser ∧
      model.reads =
        compilation.grammar.parserRules.flatMap (compilation.source {} parser).ruleReads := by
  have hgood :
      (compile {} .empty "T.g"
          "grammar T; e : e X e | ~Y ; fragment B : 'b' A ; fragment A : 'a' ;").toOption.any
        fun compilation => compilation.vocabulary.nextType ≤ Text.maxInt32 &&
          compilation.eliminated = ["e"] &&
          compilation.eliminated.all (fun name => (compilation.grammar.rule? name).isSome) &&
          (compilation.grammar.lexerRules.all fun rule =>
            (compilation.grammar.definition? rule).all fun definition =>
              definition.leaves.all (·.kind != .ruleRef)) &&
          compilation.lexer.any (fun network =>
            network.readings = [.atom 0 98, .rule 3 1 0 0, .atom 0 97]) &&
          compilation.parser.isSome := by
    decide +kernel
  obtain ⟨compilation, hcompile, hgood⟩ := (Option.any_eq_true _ _).mp hgood
  simp only [Bool.and_eq_true] at hgood
  obtain ⟨⟨⟨⟨⟨hsize, heliminated⟩, hkept⟩, hleaves⟩, hlexer⟩, hparser⟩ := hgood
  obtain ⟨lexer, hlexer, hreadings⟩ := (Option.any_eq_true _ _).mp hlexer
  obtain ⟨parser, hparser⟩ := Option.isSome_iff_exists.mp hparser
  have hcompile := ok_of_toOption hcompile
  obtain ⟨hlexers, hparsers⟩ :=
    nothing_lost hcompile (of_decide_eq_true hsize) (List.all_eq_true.mp hkept)
      fun rule hrule definition hdefinition e he => by
        have hall := List.all_eq_true.mp hleaves rule hrule
        rw [hdefinition] at hall
        exact bne_iff_ne.mp (List.all_eq_true.mp hall e he)
  obtain ⟨hcomplete, model, hmodel, hreads, -⟩ := hparsers parser hparser
  exact ⟨compilation, lexer, parser, model, hcompile, of_decide_eq_true heliminated, hlexer, hparser,
    hmodel, of_decide_eq_true hreadings, hlexers lexer hlexer, hcomplete, hreads⟩

/-- A reference to a rule of the parser in a rule of tokens is lost: the lexer reads the character
before it, and calls no rule. -/
theorem reference_lost :
    ∃ (compilation : Compilation) (lexer : Network) (rule : Rule) (definition : RuleDef)
        (r : RuleRef), compile {} .empty "T.g" "grammar T; s : X ; fragment A : 'a' s ;" =
        .ok compilation ∧ compilation.lexer = some lexer ∧
      rule ∈ compilation.grammar.lexerRules ∧
      compilation.grammar.definition? rule = some definition ∧ .ruleRef r ∈ definition.leaves ∧
      (compilation.grammar.rule? r.name).isSome ∧ lexer.readings = [.atom 0 97] := by
  have hgood :
      (compile {} .empty "T.g" "grammar T; s : X ; fragment A : 'a' s ;").toOption.any
        fun compilation => (compilation.grammar.lexerRules.any fun rule =>
            (compilation.grammar.definition? rule).any fun definition =>
              definition.leaves.any fun e => (e.refName? false).any fun name =>
                (compilation.grammar.rule? name).isSome) &&
          compilation.lexer.any (fun network => network.readings = [.atom 0 97]) := by
    decide +kernel
  obtain ⟨compilation, hcompile, hgood⟩ := (Option.any_eq_true _ _).mp hgood
  rw [Bool.and_eq_true] at hgood
  obtain ⟨lexer, hlexer, hreadings⟩ := (Option.any_eq_true _ _).mp hgood.2
  obtain ⟨rule, hrule, hany⟩ := List.any_eq_true.mp hgood.1
  obtain ⟨definition, hdefinition, hany⟩ := (Option.any_eq_true _ _).mp hany
  obtain ⟨e, he, hname⟩ := List.any_eq_true.mp hany
  cases e with
  | ruleRef r =>
      exact ⟨compilation, lexer, rule, definition, r, ok_of_toOption hcompile, hlexer, hrule,
        hdefinition, he, hname, of_decide_eq_true hreadings⟩
  | _ => simp [Element.refName?] at hname

end GrammarCompiler
