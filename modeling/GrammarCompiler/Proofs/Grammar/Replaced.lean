import GrammarCompiler.Proofs.Grammar.Built
import GrammarCompiler.Proofs.Token.Extended

/-!
# What replacing a rule changes

A rule is replaced altogether or not at all (`Grammar.replaceRule_frame`). A rule that is not replaced
leaves nothing behind but tokens. One that is replaced gives way to a rule in its place, with its number
and its name token, and nothing else changes. The new rule has the name of the old one, except where
that is the mark of helper rules and the mark is all that is read of it.
-/

namespace GrammarCompiler

theorem LeftRecursion.nameToken_link (lr : LeftRecursion) (rule : RuleDef) :
    (lr.link rule).2.nameToken = rule.nameToken := by
  unfold link
  split
  · rfl
  · rfl

/-- Whether a rule can take the place of another: it has the number, the definition and the name token
of the other, and is named as it is defined. -/
structure Rule.StandsFor (next rule : Rule) (definition : RuleDef) : Prop where
  index : next.index = rule.index
  defIndex : next.defIndex = rule.defIndex
  nameToken : next.nameToken = rule.nameToken
  definitionToken : definition.nameToken = rule.nameToken
  name : next.name = definition.name

namespace Grammar

def withRule (grammar : Grammar) (rule next : Rule) (definition : RuleDef) : Grammar :=
  (grammar.setDefinition rule.defIndex definition).setRule rule.name next

theorem replaceBy_eq (grammar : Grammar) (rule : Rule) (lr : LeftRecursion) (definition : RuleDef) :
    ∃ next definition', (grammar.replaceBy rule lr definition).1 =
      grammar.withRule rule next definition' ∧ next.StandsFor rule definition' ∧
      next.name = definition.name := by
  have hname := lr.name_link { definition with nameToken := rule.nameToken }
  have htoken := lr.nameToken_link { definition with nameToken := rule.nameToken }
  unfold replaceBy
  generalize lr.link { definition with nameToken := rule.nameToken } = linked at hname htoken
  obtain ⟨lr', definition'⟩ := linked
  exact ⟨_, definition', rfl, ⟨rfl, rfl, htoken, htoken, rfl⟩, hname⟩

/-! ## Rules and their definitions -/

/-- Whether rules are named as their definitions are and by the same tokens, and no two of them have
the same one. -/
structure Tied (grammar : Grammar) : Prop where
  names : ∀ rule ∈ grammar.rules, ∀ definition, grammar.definition? rule = some definition →
    definition.name = rule.name ∧ definition.nameToken = rule.nameToken
  places : (grammar.rules.map (·.defIndex)).Nodup

theorem tied_collect (grammar : Grammar) : grammar.collect.1.Tied := by
  refine ⟨fun rule hrule definition hdefinition => ?_, ?_⟩
  · obtain ⟨index, hmade⟩ := exists_ofDef_collect hrule hdefinition
    rw [hmade]
    exact ⟨rfl, rfl⟩
  · refine List.Nodup.sublist (grammar.places_collectFrom _ []) ?_
    rw [List.zipIdx_map_snd]
    exact List.nodup_range'

theorem tied_gather {library : Library} {file source : String} {grammar : Grammar}
    {report : Report} (h : gather library file source = (some grammar, report)) : grammar.Tied := by
  obtain ⟨whole, rfl, -⟩ := exists_collect_of_gather (P := fun _ => True)
    (fun _ _ h => h) (fun _ _ _ => trivial) h
  exact tied_collect whole

theorem Tied.withRule {grammar : Grammar} (h : grammar.Tied) {name : String} {rule next : Rule}
    {definition : RuleDef} (hrule : grammar.rule? name = some rule)
    (hnext : next.StandsFor rule definition) : (grammar.withRule rule next definition).Tied := by
  have hplaces : ((grammar.withRule rule next definition).rules.map (·.defIndex)) =
      grammar.rules.map (·.defIndex) := map_set_findIdx hrule hnext.defIndex
  have hnodup := hplaces ▸ h.places
  refine ⟨fun r hr d hd => ?_, hnodup⟩
  have hd : (grammar.source.rules.set rule.defIndex definition)[r.defIndex]? = some d := hd
  have hmem : next ∈ (grammar.withRule rule next definition).rules :=
    List.mem_iff_getElem?.mpr
      ⟨_, List.getElem?_set_self (List.getElem?_eq_some_iff.mp (getElem?_findIdx hrule)).1⟩
  by_cases hplace : rule.defIndex = r.defIndex
  · -- no other rule has this definition
    have hsame : r = next :=
      List.inj_on_of_nodup_map hnodup hr hmem (hplace.symm.trans hnext.defIndex.symm)
    rw [← hplace, List.getElem?_set] at hd
    split at hd
    · split at hd
      · obtain rfl := Option.some.inj hd
        rw [hsame, hnext.name, hnext.nameToken]
        exact ⟨rfl, hnext.definitionToken⟩
      · cases hd
    · contradiction
  · rw [List.getElem?_set_ne hplace] at hd
    rcases List.mem_or_eq_of_mem_set hr with hr | rfl
    · exact h.names r hr d hd
    · exact absurd hnext.defIndex.symm hplace

theorem Tied.replaceRule {grammar : Grammar} (h : grammar.Tied) (layout : Layout) (name : String) :
    (grammar.replaceRule layout name).grammar.Tied := by
  rcases grammar.replaceRule_cases layout name with ⟨-, hsame | ⟨_, _, hsame⟩⟩ |
    ⟨rule, written, issues, analysis, definition, tokens, hrule, -, -, -, _, rfl, heq⟩
  · rw [hsame]
    exact h
  · rw [hsame]
    exact ⟨h.names, h.places⟩
  · have htied : (grammar.withTokens tokens).Tied := ⟨h.names, h.places⟩
    obtain ⟨next, definition', hnext, hstands, -⟩ := (grammar.withTokens tokens).replaceBy_eq rule
      (LeftRecursion.ofInfos analysis.primary analysis.operators analysis.refLabels written.alts)
      definition
    rw [heq, hnext]
    exact htied.withRule hrule hstands

theorem Tied.replaceRules {grammar : Grammar} (h : grammar.Tied) (layout : Layout)
    (names : List String) : (grammar.replaceRules layout names).1.Tied := by
  induction names generalizing grammar with
  | nil => exact h
  | cons name names ih => exact ih (h.replaceRule layout name)

theorem Tied.eliminate {grammar : Grammar} (h : grammar.Tied) (layout : Layout) :
    (grammar.eliminate layout).1.Tied := by
  have hreplaced := h.replaceRules layout grammar.leftRecursiveRules
  refine ⟨fun rule hrule d hd => ?_, hreplaced.places⟩
  have hd : ((grammar.replaceRules layout grammar.leftRecursiveRules).1.source.rules.map
    (demandAny _))[rule.defIndex]? = some d := hd
  rw [List.getElem?_map] at hd
  obtain ⟨d', hd', rfl⟩ := Option.map_eq_some_iff.mp hd
  exact hreplaced.names rule hrule d' hd'

/-- Rules are tied to their definitions. -/
theorem Built.tied {grammar : Grammar} (h : grammar.Built) : grammar.Tied := by
  induction h with
  | gathered h => exact tied_gather h
  | replaced layout name _ ih => exact ih.replaceRule layout name
  | eliminated layout _ ih => exact ih.eliminate layout

/-! ## All or nothing -/

theorem nameRead_operatorRule (analysis : RuleAnalysis) (written : RuleDef) :
    (analysis.operatorRule written).nameRead =
      if written.name = "fragment" ∧ written.args = none ∧ written.returns.isSome then "returns"
      else written.name := by
  unfold OperatorRule.nameRead RuleAnalysis.operatorRule
  simp only [Option.map_eq_none_iff, Option.isSome_map]

/-- Replacing a rule keeps the tokens there are. -/
theorem extends_replaceRule (grammar : Grammar) (layout : Layout) (name : String) :
    (grammar.replaceRule layout name).grammar.tokens.Extends grammar.tokens := by
  rcases grammar.replaceRule_cases layout name with ⟨-, hsame | ⟨_, _, hsame⟩⟩ |
    ⟨rule, written, issues, analysis, definition, tokens, -, -, -, hparse, _, rfl, heq⟩
  · rw [hsame]
    exact .refl _
  · rw [hsame]
    exact RuleDef.extends_of_parse ..
  · obtain ⟨next, definition', hnext, -⟩ := (grammar.withTokens tokens).replaceBy_eq rule
      (LeftRecursion.ofInfos analysis.primary analysis.operators analysis.refLabels written.alts)
      definition
    have hextends := RuleDef.extends_of_parse s!"<{rule.name} precedence rule>"
      (layout.rule (analysis.operatorRule written)) grammar.tokens
    rw [hparse] at hextends
    rw [heq, hnext]
    exact hextends

/-- A rule that is replaced gives way to one that stands for it, and has its name unless the name is the
mark of helper rules with the results right behind it. -/
theorem withRule_of_done {grammar : Grammar} (h : grammar.Built) {layout : Layout} {name : String}
    (hdone : (grammar.replaceRule layout name).done = true) :
    ∃ rule written next definition, grammar.rule? name = some rule ∧
      grammar.definition? rule = some written ∧
      (grammar.replaceRule layout name).grammar = (grammar.withTokens
        (grammar.replaceRule layout name).grammar.tokens).withRule rule next definition ∧
      next.StandsFor rule definition ∧
      next.name = if name = "fragment" ∧ written.args = none ∧ written.returns.isSome then "returns"
        else name := by
  rcases grammar.replaceRule_cases layout name with ⟨hnot, -⟩ |
    ⟨rule, written, issues, analysis, definition, tokens, hrule, hwritten, -, hparse, _, rfl, heq⟩
  · exact absurd (hnot.symm.trans hdone) (by decide)
  · have hnamed : written.name = name :=
      (h.tied.names rule (List.mem_of_find?_eq_some hrule) written hwritten).1.trans
        (name_of_rule? hrule)
    have hisName := h.steady.names written (List.mem_of_getElem? hwritten)
    have hread := @RuleDef.name_of_parse layout (analysis.operatorRule written) hisName _ _ _ _ hparse
    rw [nameRead_operatorRule, hnamed] at hread
    obtain ⟨next, definition', hnext, hstands, hname⟩ :=
      (grammar.withTokens tokens).replaceBy_eq rule (LeftRecursion.ofInfos analysis.primary
        analysis.operators analysis.refLabels written.alts) definition
    rw [heq, hnext]
    exact ⟨rule, written, next, definition', hrule, hwritten, rfl, hstands, hname.trans hread⟩

/-- Replacing a rule keeps the tokens there are. A rule that is not replaced leaves everything else as
it is; a rule that is replaced gives way to one that stands for it, and has its name unless the name is
the mark of helper rules with the results right behind it. -/
theorem replaceRule_frame {grammar : Grammar} (h : grammar.Built) (layout : Layout) (name : String) :
    let result := grammar.replaceRule layout name
    result.grammar.tokens.Extends grammar.tokens ∧
    (result.done = false → result.grammar = grammar.withTokens result.grammar.tokens) ∧
    (result.done = true → ∃ rule written next definition, grammar.rule? name = some rule ∧
      grammar.definition? rule = some written ∧
      result.grammar = (grammar.withTokens result.grammar.tokens).withRule rule next definition ∧
      next.StandsFor rule definition ∧
      next.name = if name = "fragment" ∧ written.args = none ∧ written.returns.isSome then "returns"
        else name) := by
  refine ⟨grammar.extends_replaceRule layout name, fun hnot => ?_, withRule_of_done h⟩
  rcases grammar.replaceRule_cases layout name with ⟨-, hsame | ⟨_, _, hsame⟩⟩ |
    ⟨_, _, _, _, _, _, -, -, -, -, _, -, heq⟩
  · rw [hsame]
    rfl
  · rw [hsame]
    rfl
  · rw [heq] at hnot
    cases hnot

/-- A rule that is replaced in front of one that is not. -/
theorem replaceRule_frame_first :
    ∃ (grammar : Grammar) (report : Report) (rule next : Rule) (definition : RuleDef),
      gather .empty "T.g" "parser grammar T; e : e X | Y ; s : e ;" = (some grammar, report) ∧
      grammar.rule? "e" = some rule ∧
      (grammar.replaceRule .standard "e").grammar =
        (grammar.withTokens (grammar.replaceRule .standard "e").grammar.tokens).withRule rule next
          definition ∧
      next.StandsFor rule definition ∧ next.name = "e" := by
  have hgood : (gather .empty "T.g" "parser grammar T; e : e X | Y ; s : e ;").1.any fun grammar =>
      (grammar.replaceRule .standard "e").done := by
    decide +kernel
  obtain ⟨grammar, hgrammar, hdone⟩ := (Option.any_eq_true _ _).mp hgood
  have hgather : gather .empty "T.g" "parser grammar T; e : e X | Y ; s : e ;" = (some grammar, _) :=
    Prod.ext hgrammar rfl
  obtain ⟨rule, written, next, definition, hrule, -, hafter, hstands, hname⟩ :=
    (replaceRule_frame (.gathered hgather) .standard "e").2.2 hdone
  refine ⟨grammar, _, rule, next, definition, hgather, hrule, hafter, hstands, ?_⟩
  rwa [if_neg (fun h => absurd h.1 (by decide))] at hname

/-- A rule that loses its name. -/
theorem replaceRule_renames :
    ∃ (grammar : Grammar) (report : Report),
      gather .empty "T.g" "parser grammar T; fragment fragment returns [i] : fragment X | Y ;" =
        (some grammar, report) ∧
      (grammar.replaceRule .standard "fragment").done = true ∧
      grammar.rules.map (·.name) = ["fragment"] ∧
      (grammar.replaceRule .standard "fragment").grammar.rules.map (·.name) = ["returns"] := by
  have hbad : (gather .empty "T.g"
      "parser grammar T; fragment fragment returns [i] : fragment X | Y ;").1.any fun grammar =>
      (grammar.replaceRule .standard "fragment").done &&
        (grammar.rules.map (·.name) = ["fragment"] &&
          (grammar.replaceRule .standard "fragment").grammar.rules.map (·.name) = ["returns"]) := by
    decide +kernel
  obtain ⟨grammar, hgrammar, hbad⟩ := (Option.any_eq_true _ _).mp hbad
  simp only [Bool.and_eq_true, decide_eq_true_eq] at hbad
  exact ⟨grammar, _, Prod.ext hgrammar rfl, hbad⟩

end Grammar

end GrammarCompiler
