import GrammarCompiler.Proofs.Ast.Views
import GrammarCompiler.Proofs.Compile

/-!
# References to rules

A grammar that passes its checks has a rule for every name that its rules refer to. A rule that is
put in the place of a left-recursive one is checked once more, so all that can go wrong when left
recursion is eliminated is that a rule comes back under another name. Then its old name is lost
(`Refers`), and nothing else is.
-/

namespace GrammarCompiler

/-! ## References -/

/-- The rule that an element of a rule refers to. Token rules refer to each other by the names of
tokens. -/
def Element.refName? (inLexerRule : Bool) : Element → Option String
  | .ruleRef r => some r.name
  | .tokenRef name _ _ => if inLexerRule then some name else none
  | _ => none

def RuleDef.refNames (rule : RuleDef) (inLexerRule : Bool) : List String :=
  rule.nodes.filterMap (Element.refName? inLexerRule)

namespace Grammar

variable {grammar : Grammar} {lost : List String}

theorem refNames_demandAny (names : List String) (rule : RuleDef) (inLexerRule : Bool) :
    (demandAny names rule).refNames inLexerRule = rule.refNames inLexerRule := by
  refine Alt.filterMap_mapListOptions (fun e s => ?_) rule.alts ()
  cases e <;> rfl

/-- Every name that a rule refers to is that of a rule, or it has been lost. -/
def Refers (grammar : Grammar) (lost : List String) : Prop :=
  ∀ rule ∈ grammar.rules, ∀ definition, grammar.definition? rule = some definition →
    ∀ name ∈ definition.refNames rule.isLexerRule, (grammar.rule? name).isSome ∨ name ∈ lost

/-! ## Checks -/

/-- A name that no rule has is reported where it stands. -/
theorem refIssue?_of_refName? {inLexerRule : Bool} {e : Element} {name : String}
    (h : e.refName? inLexerRule = some name) (hnone : (grammar.rule? name).isNone = true) :
    grammar.refIssue? inLexerRule e =
      some (grammar.issueAt .undefinedRuleRef e.extent.start [name]) := by
  cases e with
  | ruleRef r =>
      obtain rfl := Option.some.inj h
      exact if_pos hnone
  | tokenRef token options extent =>
      rw [Element.refName?] at h
      split at h
      · next hlexer =>
          obtain rfl := Option.some.inj h
          exact (if_pos hlexer).trans (if_pos hnone)
      · cases h
  | _ => cases h

/-- A rule that is checked without errors refers to rules. -/
theorem isSome_of_checkRule {checkAssoc : Bool} {rule : Rule} {definition : RuleDef}
    (hdefinition : grammar.definition? rule = some definition)
    (h : AllWarnings (grammar.checkRule checkAssoc rule)) {name : String}
    (hname : name ∈ definition.refNames rule.isLexerRule) : (grammar.rule? name).isSome := by
  obtain ⟨e, he, hname⟩ := List.mem_filterMap.mp hname
  unfold checkRule at h
  rw [hdefinition] at h
  rw [← Option.not_isNone, Bool.not_eq_true', ← Bool.not_eq_true]
  intro hnone
  have hissue := h.append.1 _ (List.mem_filterMap.mpr ⟨e, he, refIssue?_of_refName? hname hnone⟩)
  cases hissue

theorem refers_of_check {checkAssoc : Bool} (h : AllWarnings (grammar.check checkAssoc)) :
    grammar.Refers [] := by
  intro rule hrule definition hdefinition name hname
  have hwarnings : AllWarnings (grammar.checkRule checkAssoc rule) := fun issue hissue =>
    h.append.1 issue (List.mem_flatMap.mpr ⟨rule, hrule, hissue⟩)
  exact .inl (isSome_of_checkRule hdefinition hwarnings hname)

/-! ## Replacing rules -/

/-- A rule that is replaced takes its name along, and no other. -/
theorem isSome_rule?_setRule {name : String} (rule : Rule) {other : String}
    (h : (grammar.rule? other).isSome) :
    ((grammar.setRule name rule).rule? other).isSome ∨ other = name := by
  obtain ⟨r, hr⟩ := Option.isSome_iff_exists.mp h
  have hname : r.name = other := name_of_rule? hr
  obtain ⟨i, hi⟩ := List.mem_iff_getElem?.mp (List.mem_of_find?_eq_some hr)
  by_cases hplace : i = grammar.rules.findIdx (·.name == name)
  · refine .inr ?_
    obtain ⟨hlt, hget⟩ := List.getElem?_eq_some_iff.mp hi
    have hfound := List.findIdx_getElem (w := hplace ▸ hlt)
    simp only [← hplace, hget, beq_iff_eq] at hfound
    rw [← hname, hfound]
  · refine .inl (List.find?_isSome.mpr ⟨r, ?_, by rw [hname]; exact beq_self_eq_true _⟩)
    refine List.mem_iff_getElem?.mpr ⟨i, ?_⟩
    show (grammar.rules.set _ rule)[i]? = some r
    rw [List.getElem?_set_ne (Ne.symm hplace)]
    exact hi

theorem kept_setRule (name : String) (rule : Rule) {other : String}
    (h : (grammar.rule? other).isSome ∨ other ∈ lost) :
    ((grammar.setRule name rule).rule? other).isSome ∨ other ∈ name :: lost := by
  rcases h with h | h
  · refine (isSome_rule?_setRule rule h).imp_right ?_
    rintro rfl
    exact List.mem_cons_self ..
  · exact .inr (List.mem_cons_of_mem _ h)

/-- A rule that gives way to one of its kind may take its name along. -/
theorem Refers.replaceBy (h : grammar.Refers lost) (hsteady : grammar.Steady) {rule : Rule}
    {written definition : RuleDef} (hrule : rule ∈ grammar.rules)
    (hwritten : grammar.definition? rule = some written)
    (hkind : definition.isLexerRule = written.isLexerRule) {lr : LeftRecursion}
    (hissues : AllWarnings (grammar.replaceBy rule lr definition).2) :
    (grammar.replaceBy rule lr definition).1.Refers (rule.name :: lost) := by
  have hname := lr.name_link { definition with nameToken := rule.nameToken }
  unfold Grammar.replaceBy at hissues ⊢
  dsimp only at hissues ⊢
  generalize lr.link { definition with nameToken := rule.nameToken } = linked at hissues hname ⊢
  obtain ⟨lr', new⟩ := linked
  have hlexer : new.isLexerRule = rule.isLexerRule :=
    (congrArg isTokenName hname).trans (hkind.trans (hsteady.kinds rule hrule written hwritten))
  -- the new definition is found at the place of the old one
  have hnew : ∀ r : Rule, r.defIndex = rule.defIndex →
      (grammar.setDefinition rule.defIndex new).definition? r = some new := by
    intro r hr
    show (grammar.source.rules.set rule.defIndex new)[r.defIndex]? = some new
    rw [hr, List.getElem?_set_self (hsteady.defined rule hrule)]
  have hchecked : ∀ name ∈ new.refNames rule.isLexerRule, (grammar.rule? name).isSome := by
    intro name hname
    refine isSome_of_checkRule (hnew (Rule.ofDef new rule.defIndex rule.index) rfl)
      hissues.append.1 ?_
    rw [show (Rule.ofDef new rule.defIndex rule.index).isLexerRule = _ from hlexer]
    exact hname
  intro r hr d hd name hname
  have hd : (grammar.source.rules.set rule.defIndex new)[r.defIndex]? = some d := hd
  refine @kept_setRule (grammar.setDefinition rule.defIndex new) lost _ _ _ ?_
  show (grammar.rule? name).isSome ∨ name ∈ lost
  by_cases hplace : r.defIndex = rule.defIndex
  · obtain rfl : new = d := Option.some.inj ((hnew r hplace).symm.trans hd)
    refine .inl (hchecked name ?_)
    rw [show rule.isLexerRule = r.isLexerRule from ?_]
    · exact hname
    · rcases List.mem_or_eq_of_mem_set hr with hr | rfl
      · have hr' : grammar.definition? r = some written := by
          unfold definition?
          rw [hplace]
          exact hwritten
        rw [← hsteady.kinds r hr written hr', ← hsteady.kinds rule hrule written hwritten]
      · exact hlexer.symm
  · rw [List.getElem?_set_ne (Ne.symm hplace)] at hd
    rcases List.mem_or_eq_of_mem_set hr with hr | rfl
    · exact h r hr d hd name hname
    · exact absurd rfl hplace

theorem Refers.replaceRule (h : grammar.Refers lost) (hsteady : grammar.Steady) (layout : Layout)
    (name : String) (hissues : AllWarnings (grammar.replaceRule layout name).issues) :
    (grammar.replaceRule layout name).grammar.Refers
      (if (grammar.replaceRule layout name).done then name :: lost else lost) := by
  rcases grammar.replaceRule_cases layout name with ⟨hdone, hsame | ⟨_, _, hsame⟩⟩ |
    ⟨rule, written, issues, analysis, definition, tokens, hrule, hwritten, -, hparse, _, rfl, heq⟩
  · rw [hdone, hsame]
    exact h
  · rw [hdone, hsame]
    exact h
  · obtain ⟨-, hkind⟩ :=
      kind_of_parse (hsteady.names written (List.mem_of_getElem? hwritten)) hparse
    rw [heq] at hissues ⊢
    have hreplaced := @Refers.replaceBy (grammar.withTokens tokens) lost h
      (hsteady.withTokens tokens) rule written definition (List.mem_of_find?_eq_some hrule) hwritten
      hkind _ hissues.append.2
    rw [name_of_rule? hrule] at hreplaced
    exact hreplaced

theorem Refers.replaceRules (h : grammar.Refers lost) (hsteady : grammar.Steady) (layout : Layout)
    (names : List String) (hissues : AllWarnings (grammar.replaceRules layout names).2.1) :
    (grammar.replaceRules layout names).1.Refers
      (((grammar.replaceRules layout names).2.2.filter (·.2)).map (·.1) ++ lost) := by
  induction names generalizing grammar lost with
  | nil => exact h
  | cons name names ih =>
      rw [Grammar.replaceRules] at hissues ⊢
      obtain ⟨hfirst, hrest⟩ := AllWarnings.append hissues
      have hreplaced := ih (h.replaceRule hsteady layout name hfirst)
        (hsteady.replaceRule layout name) hrest
      intro rule hrule definition hdefinition other hother
      refine (hreplaced rule hrule definition hdefinition other hother).imp_right fun hmem => ?_
      dsimp only
      cases hdone : (grammar.replaceRule layout name).done with
      | true =>
          rw [hdone, if_pos rfl] at hmem
          rw [List.filter_cons_of_pos rfl, List.map_cons, List.cons_append]
          exact List.mem_cons.mpr ((List.mem_append.mp hmem).elim
            (fun h => .inr (List.mem_append_left _ h)) fun h => (List.mem_cons.mp h).imp_right
              (List.mem_append_right _))
      | false =>
          rw [hdone, if_neg Bool.false_ne_true] at hmem
          rw [List.filter_cons_of_neg Bool.false_ne_true]
          exact hmem

/-- When left recursion has been eliminated, the only names that may be lost are those of rules
that were replaced. -/
theorem Refers.eliminate (h : grammar.Refers []) (hsteady : grammar.Steady) (layout : Layout)
    (hissues : AllWarnings (grammar.eliminate layout).2.1) :
    (grammar.eliminate layout).1.Refers (grammar.eliminate layout).2.2 := by
  have hreplaced := h.replaceRules hsteady layout grammar.leftRecursiveRules hissues
  rw [List.append_nil] at hreplaced
  intro rule hrule definition hdefinition name hname
  have hdefinition : ((grammar.replaceRules layout grammar.leftRecursiveRules).1.source.rules.map
    (demandAny _))[rule.defIndex]? = some definition := hdefinition
  rw [List.getElem?_map] at hdefinition
  obtain ⟨d, hd, rfl⟩ := Option.map_eq_some_iff.mp hdefinition
  rw [refNames_demandAny] at hname
  exact hreplaced rule hrule d hd name hname

end Grammar

/-- In a grammar that compiles, all references are to rules, if the rules that were replaced have
kept their names. -/
theorem Compilation.Made.refers {compilation : Compilation} {options : CompileOptions}
    {collected : Grammar} (h : compilation.Made options collected) (hsteady : collected.Steady)
    (hkept : ∀ name ∈ compilation.eliminated, (compilation.grammar.rule? name).isSome) :
    compilation.grammar.Refers [] := by
  have hrefers := (Grammar.refers_of_check h.checked).eliminate hsteady .standard h.eliminated
  rw [← h.grammar] at hrefers
  intro rule hrule definition hdefinition name hname
  refine .inl ((hrefers rule hrule definition hdefinition name hname).elim id fun hlost => ?_)
  exact hkept name (h.names ▸ hlost)

end GrammarCompiler
