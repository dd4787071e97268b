import GrammarCompiler.Proofs.Recursion.Parted

/-!
# How a rule is rewritten

A rule that is replaced has been analyzed, its new text has been read, and what was found out about it
has been linked with what was read (`Grammar.Rewrites`).
-/

namespace GrammarCompiler

/-- What was found out about a rule, linked with the rule that was read from its new text. -/
def RuleAnalysis.linked (analysis : RuleAnalysis) (rule : Rule) (written parsed : RuleDef) :
    LeftRecursion × RuleDef :=
  (LeftRecursion.ofInfos analysis.primary analysis.operators analysis.refLabels written.alts).link
    { parsed with nameToken := rule.nameToken }

def Rule.rewritten (rule : Rule) (linked : LeftRecursion × RuleDef) : Rule :=
  { (Rule.ofDef linked.2 rule.defIndex rule.index).addLabels
      (linked.1.refLabels.map RefLabel.labelDef) with leftRecursion := some linked.1 }

namespace Grammar

/-- Whether a rule is replaced by what has been read from its new text. -/
structure Rewrites (grammar : Grammar) (name : String) (rule : Rule) (written : RuleDef)
    (analysis : RuleAnalysis) (parsed : RuleDef) : Prop where
  tells : List.Forall₂ (grammar.Tells written) written.numbered analysis.alts
  parse : RuleDef.parse s!"<{rule.name} precedence rule>"
    (Layout.standard.rule (analysis.operatorRule written)) grammar.tokens =
      (.ok parsed, (grammar.replaceRule .standard name).grammar.tokens)
  next : (grammar.replaceRule .standard name).grammar.rules[
    grammar.rules.findIdx (·.name == name)]? =
      some (rule.rewritten (analysis.linked rule written parsed))
  definition : (grammar.replaceRule .standard name).grammar.source.rules[rule.defIndex]? =
    some (analysis.linked rule written parsed).2

theorem rewrites_of_done {grammar : Grammar} {name : String} {rule : Rule} {written : RuleDef}
    (hrule : grammar.rule? name = some rule) (hwritten : grammar.definition? rule = some written)
    (hdone : (grammar.replaceRule .standard name).done = true) :
    ∃ analysis parsed, grammar.Rewrites name rule written analysis parsed := by
  rcases grammar.replaceRule_cases .standard name with ⟨hnot, -⟩ |
    ⟨rule', written', issues, analysis, parsed, tokens, hrule', hwritten', hanalyze, hparse, _, rfl,
      heq⟩
  · rw [hdone] at hnot
    cases hnot
  obtain rfl : rule = rule' := Option.some.inj (hrule.symm.trans hrule')
  obtain rfl : written = written' := Option.some.inj (hwritten.symm.trans hwritten')
  have hplace : grammar.rules.findIdx (·.name == rule.name) < grammar.rules.length :=
    (List.getElem?_eq_some_iff.mp (getElem?_findIdx hrule)).1
  have hdefinition : rule.defIndex < grammar.source.rules.length :=
    (List.getElem?_eq_some_iff.mp hwritten).1
  refine ⟨analysis, parsed, analyze_eq_ok hanalyze, ?_, ?_, ?_⟩
  · rw [heq]
    exact hparse
  · rw [heq, ← name_of_rule? hrule]
    exact List.getElem?_set_self hplace
  · rw [heq]
    exact List.getElem?_set_self hdefinition

end Grammar

end GrammarCompiler
