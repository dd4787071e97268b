import GrammarCompiler.Proofs.Grammar.References
import GrammarCompiler.Proofs.Grammar.Replaced

/-!
# Token rules

No literal that is read is empty, and every name in a rule that has been checked is that of a rule. If
the token rules of a grammar name token rules only, the rules of its lexer are complete
(`Grammar.Lexical`). They stay as they are when left recursion is eliminated, which replaces nothing
but parser rules (`Grammar.Lexical.eliminate`).
-/

namespace GrammarCompiler

open TokenTree (leaf group)

/-! ## Literals -/

/-- The text that an element stands for if it is a literal. -/
def Element.literal? : Element → Option String
  | .quotation literal => some literal.value
  | _ => none

def RuleDef.literals (rule : RuleDef) : List String :=
  rule.nodes.filterMap Element.literal?

theorem not_mem_filterMap_append {nodes others : List Element} {text : String}
    (h : text ∉ nodes.filterMap Element.literal?) (h' : text ∉ others.filterMap Element.literal?) :
    text ∉ (nodes ++ others).filterMap Element.literal? := by
  rw [List.filterMap_append, List.mem_append]
  exact fun hmem => hmem.elim h h'

mutual
theorem Element.Spelled.literals : ∀ (e : Element) {i : Nat} {ts : List TokenTree},
    e.Spelled i ts → "" ∉ e.nodes.filterMap Element.literal?
  | .block alts _ _, i, ts, h => by
      rw [Element.Spelled] at h
      obtain ⟨-, -, opened, closed, body, -, halts⟩ := h
      exact Alt.AllSpelled.literals alts halts
  | .suffixed _ _ inner _, i, ts, h => by
      rw [Element.Spelled] at h
      obtain ⟨-, -, front, back, -, hinner, -⟩ := h
      exact Element.Spelled.literals inner hinner
  | .labeled _ _ _ inner _, i, ts, h => by
      rw [Element.Spelled] at h
      obtain ⟨-, -, -, p, sign, rest, -, -, hinner⟩ := h
      exact Element.Spelled.literals inner hinner
  | .not operand _, i, ts, h => by
      rw [Element.Spelled] at h
      obtain ⟨-, -, joint, p, rest, -, hoperand⟩ := h
      exact Element.Spelled.literals operand hoperand
  | .set elements _, i, ts, h => by
      rw [Element.Spelled] at h
      obtain ⟨-, opened, closed, body, -, hset⟩ := h
      exact Element.SetSpelled.literals elements hset
  | .quotation literal, i, ts, h => by
      rw [Element.Spelled] at h
      obtain ⟨-, t, rest, -, ⟨-, hfull, -⟩, -⟩ := h
      intro hmem
      obtain hempty := List.mem_singleton.mp hmem
      rw [← hempty] at hfull
      cases hfull
  | .ruleRef _, _, _, _ | .tokenRef _ _ _, _, _, _ | .range _ _ _, _, _, _ | .wildcard _ _, _, _, _
  | .action _, _, _, _ | .predicate _, _, _, _ | .command _ _ _, _, _, _
  | .epsilon _, _, _, _ => List.not_mem_nil

theorem Element.ListSpelled.literals : ∀ (es : List Element) {i : Nat} {ts : List TokenTree},
    Element.ListSpelled i ts es → "" ∉ (Element.listNodes es).filterMap Element.literal?
  | [], _, _, _ => List.not_mem_nil
  | e :: es, i, ts, h => by
      rw [Element.ListSpelled] at h
      obtain ⟨front, back, -, he, -, hes⟩ := h
      exact not_mem_filterMap_append (Element.Spelled.literals e he)
        (Element.ListSpelled.literals es hes)

theorem Element.SetSpelled.literals : ∀ (es : List Element) {i : Nat} {ts : List TokenTree},
    Element.SetSpelled i ts es → "" ∉ (Element.listNodes es).filterMap Element.literal?
  | [], _, _, _ => List.not_mem_nil
  | e :: es, i, ts, h => by
      rw [Element.SetSpelled] at h
      obtain ⟨-, front, back, -, he, hrest⟩ := h
      refine not_mem_filterMap_append (Element.Spelled.literals e he) ?_
      rcases hrest with ⟨rfl, -⟩ | ⟨joint, p, rest, -, hes⟩
      · exact List.not_mem_nil
      · exact Element.SetSpelled.literals es hes

theorem Alt.AllSpelled.literals : ∀ (as : List Alt) {i : Nat} {ts : List TokenTree},
    Alt.AllSpelled i ts as → "" ∉ (Alt.listNodes as).filterMap Element.literal?
  | [], _, _, _ => List.not_mem_nil
  | ⟨elements, options, label, extent, info⟩ :: as, i, ts, h => by
      rw [Alt.AllSpelled] at h
      obtain ⟨front, back, -, ha, hrest⟩ := h
      rw [Alt.Spelled] at ha
      obtain ⟨-, options', body, label', -, -, -, -, hbody⟩ := ha
      refine not_mem_filterMap_append ?_ ?_
      · rcases hbody with ⟨-, rfl⟩ | ⟨-, -, hbody⟩
        · exact List.not_mem_nil
        · exact Element.ListSpelled.literals elements hbody
      · rcases hrest with ⟨rfl, -⟩ | ⟨joint, p, rest, -, -, has⟩
        · exact List.not_mem_nil
        · exact Alt.AllSpelled.literals as has
end

theorem RulesSpelled.literals {rules : List RuleDef} {i : Nat} {ts : List TokenTree}
    (h : RulesSpelled i ts rules) : ∀ rule ∈ rules, "" ∉ rule.literals := by
  induction rules generalizing i ts with
  | nil => exact nofun
  | cons rule rules ih =>
      obtain ⟨front, back, -, hrule, hrules⟩ := h
      obtain ⟨-, -, mark, heading, body, p, joint, joint', q, r, -, -, -, halts, -⟩ := hrule
      exact List.forall_mem_cons.mpr ⟨Alt.AllSpelled.literals rule.alts halts, ih hrules⟩

/-- No literal in the rules of a text is empty. -/
theorem GrammarDef.literals_of_parse {file source : String} {g : GrammarDef}
    (h : GrammarDef.parse file source = .ok g) : ∀ rule ∈ g.rules, "" ∉ rule.literals := by
  unfold GrammarDef.parse at h
  obtain ⟨trees, -, h⟩ := ok_of_bind h
  obtain ⟨-, _, _, -, hspelled⟩ := Cursor.takes_grammar h
  exact hspelled.literals

theorem RuleDef.literals_shift (rule : RuleDef) (offset : Nat) :
    (rule.shift offset).literals = rule.literals :=
  Alt.filterMap_shiftAll (fun e => by cases e <;> rfl) rule.alts

namespace Grammar

theorem literals_demandAny (names : List String) (rule : RuleDef) :
    (demandAny names rule).literals = rule.literals := by
  refine Alt.filterMap_mapListOptions (fun e s => ?_) rule.alts ()
  cases e <;> rfl

theorem literals_gather {library : Library} {file source : String} {grammar : Grammar}
    {report : Report} (h : gather library file source = (some grammar, report)) :
    ∀ definition ∈ grammar.source.rules, "" ∉ definition.literals := by
  obtain ⟨whole, rfl, hall⟩ := exists_collect_of_gather
    (fun rule offset hrule => by rwa [rule.literals_shift]) GrammarDef.literals_of_parse h
  exact hall

/-! ## Names -/

/-- A name is collected once. -/
theorem nodup_collectFrom (grammar : Grammar) (definitions : List (RuleDef × Nat))
    (before : List Rule) (h : (before.map (·.name)).Nodup) :
    ((before ++ (grammar.collectFrom before definitions).1).map (·.name)).Nodup := by
  induction definitions generalizing before with
  | nil =>
      rw [collectFrom, List.append_nil]
      exact h
  | cons definition definitions ih =>
      obtain ⟨definition, place⟩ := definition
      rw [collectFrom]
      split
      · exact ih before h
      · next hfree =>
        have hnew : definition.name ∉ before.map (·.name) := by
          unfold refusal? at hfree
          split at hfree
          · cases hfree
          · next hnone =>
            intro hmem
            obtain ⟨rule, hrule, hname⟩ := List.mem_map.mp hmem
            exact List.find?_eq_none.mp hnone rule hrule (beq_iff_eq.mpr hname)
        generalize hrule : Rule.ofDef definition place
          (before.countP (·.isLexerRule == definition.isLexerRule)) = rule
        have hname : rule.name = definition.name := by rw [← hrule]; rfl
        have hafter : ((before ++ [rule]).map (·.name)).Nodup := by
          rw [List.map_append, List.map_singleton, hname, ← List.concat_eq_append]
          exact h.concat hnew
        have hall := ih (before ++ [rule]) hafter
        rw [List.append_assoc] at hall
        subst hrule
        exact hall

theorem nodup_gather {library : Library} {file source : String} {grammar : Grammar}
    {report : Report} (h : gather library file source = (some grammar, report)) :
    (grammar.rules.map (·.name)).Nodup := by
  obtain ⟨whole, rfl, -⟩ := exists_collect_of_gather (P := fun _ => True)
    (fun _ _ h => h) (fun _ _ _ => trivial) h
  exact nodup_collectFrom _ _ [] List.nodup_nil

/-! ## Token rules and what they refer to -/

/-- Whether token rules refer to no rules but token rules. -/
def TokensOnly (grammar : Grammar) : Prop :=
  ∀ rule ∈ grammar.lexerRules, ∀ definition, grammar.definition? rule = some definition →
    ∀ name ∈ definition.refNames true, ∀ callee, grammar.rule? name = some callee →
      callee.isLexerRule = true

instance (grammar : Grammar) : Decidable grammar.TokensOnly :=
  decidable_of_iff
    (∀ rule ∈ grammar.lexerRules, ∀ definition ∈ (grammar.definition? rule).toList,
      ∀ name ∈ definition.refNames true, ∀ callee ∈ (grammar.rule? name).toList,
        callee.isLexerRule = true) (by
    unfold TokensOnly
    simp only [Option.mem_toList])

/-- What the token rules of a grammar are like: they have names of their own, their literals are not
empty, and they refer to token rules. -/
structure Lexical (grammar : Grammar) : Prop where
  names : (grammar.lexerRules.map (·.name)).Nodup
  literals : ∀ rule ∈ grammar.lexerRules, ∀ definition,
    grammar.definition? rule = some definition → "" ∉ definition.literals
  references : ∀ rule ∈ grammar.lexerRules, ∀ definition,
    grammar.definition? rule = some definition → ∀ name ∈ definition.refNames true,
      ∃ callee ∈ grammar.lexerRules, callee.name = name

/-- The name of a token rule is that of token rules only. -/
theorem exists_rule?_of_lexer {grammar : Grammar} {callee : Rule} (h : callee ∈ grammar.lexerRules) :
    ∃ rule, grammar.rule? callee.name = some rule ∧ rule.isLexerRule = true := by
  obtain ⟨hmem, hkind⟩ := List.mem_filter.mp h
  have hsome : (grammar.rule? callee.name).isSome :=
    List.find?_isSome.mpr ⟨callee, hmem, beq_self_eq_true _⟩
  obtain ⟨rule, hrule⟩ := Option.isSome_iff_exists.mp hsome
  refine ⟨rule, hrule, ?_⟩
  unfold Rule.isLexerRule at hkind ⊢
  rw [name_of_rule? hrule]
  exact hkind

/-- The token rules of a grammar that has been collected and checked. -/
theorem lexical_gather {library : Library} {file source : String} {grammar : Grammar}
    {report : Report} (hgather : gather library file source = (some grammar, report))
    {checkAssoc : Bool} (hchecked : AllWarnings (grammar.check checkAssoc))
    (htokens : grammar.TokensOnly) : grammar.Lexical := by
  refine ⟨(nodup_gather hgather).sublist (List.filter_sublist.map _),
    fun rule _ definition hdefinition => ?_, fun rule hrule definition hdefinition name hname => ?_⟩
  · exact literals_gather hgather definition (List.mem_of_getElem? hdefinition)
  · obtain ⟨hmem, hkind⟩ := List.mem_filter.mp hrule
    rw [← hkind] at hname
    obtain ⟨callee, hcallee⟩ := Option.isSome_iff_exists.mp
      ((refers_of_check hchecked rule hmem definition hdefinition name hname).resolve_right
        List.not_mem_nil)
    rw [hkind] at hname
    have hlexer := htokens rule hrule definition hdefinition name hname callee hcallee
    exact ⟨callee, List.mem_filter.mpr ⟨List.mem_of_find?_eq_some hcallee, hlexer⟩,
      name_of_rule? hcallee⟩

/-! ## The elimination of left recursion -/

theorem filter_set {α : Type} {p : α → Bool} {l : List α} {i : Nat} {a : α}
    (hold : ∀ b, l[i]? = some b → p b = false) (hnew : p a = false) :
    (l.set i a).filter p = l.filter p := by
  induction l generalizing i with
  | nil => rfl
  | cons b l ih =>
      cases i with
      | zero =>
          have hb := hold b rfl
          rw [List.set_cons_zero, List.filter_cons_of_neg (by rw [hnew]; exact Bool.false_ne_true),
            List.filter_cons_of_neg (by rw [hb]; exact Bool.false_ne_true)]
      | succ i =>
          rw [List.set_cons_succ, List.filter_cons, List.filter_cons, ih hold]

section Elimination

variable {grammar : Grammar} {rule next : Rule} {definition : RuleDef} {name : String}

theorem Lexical.withRule (h : grammar.Lexical) (htied : grammar.Tied)
    (hrule : grammar.rule? name = some rule) (hparser : rule.isLexerRule = false)
    (hnext : next.isLexerRule = false) : (grammar.withRule rule next definition).Lexical := by
  have hrules : (grammar.withRule rule next definition).lexerRules = grammar.lexerRules := by
    refine filter_set (fun b hb => ?_) hnext
    obtain rfl := Option.some.inj (hb.symm.trans (getElem?_findIdx hrule))
    exact hparser
  have hdefinitions : ∀ r ∈ grammar.lexerRules,
      (grammar.withRule rule next definition).definition? r = grammar.definition? r := by
    intro r hr
    obtain ⟨hmem, hlexer⟩ := List.mem_filter.mp hr
    refine List.getElem?_set_ne fun hplace => ?_
    have hsame : rule = r :=
      List.inj_on_of_nodup_map htied.places (List.mem_of_find?_eq_some hrule) hmem hplace
    rw [← hsame, hparser] at hlexer
    cases hlexer
  refine ⟨by rw [hrules]; exact h.names, fun r hr d hd => ?_, fun r hr d hd n hn => ?_⟩
  · rw [hrules] at hr
    exact h.literals r hr d (hdefinitions r hr ▸ hd)
  · rw [hrules] at hr ⊢
    exact h.references r hr d (hdefinitions r hr ▸ hd) n hn

theorem Lexical.replaceRule (h : grammar.Lexical) (htied : grammar.Tied) (hsteady : grammar.Steady)
    (layout : Layout) (hname : isTokenName name = false) :
    (grammar.replaceRule layout name).grammar.Lexical := by
  rcases grammar.replaceRule_cases layout name with ⟨-, hsame | ⟨_, _, hsame⟩⟩ |
    ⟨rule, written, issues, analysis, definition, tokens, hrule, hwritten, -, hparse, _, rfl, heq⟩
  · rw [hsame]
    exact h
  · rw [hsame]
    exact ⟨h.names, h.literals, h.references⟩
  · have hparser : rule.isLexerRule = false := by
      unfold Rule.isLexerRule
      rw [name_of_rule? hrule]
      exact hname
    have hkind := hsteady.kinds rule (List.mem_of_find?_eq_some hrule) written hwritten
    obtain ⟨-, hread⟩ := kind_of_parse (hsteady.names written (List.mem_of_getElem? hwritten)) hparse
    obtain ⟨next, definition', hnext, -, hnextName⟩ :=
      (grammar.withTokens tokens).replaceBy_eq rule (LeftRecursion.ofInfos analysis.primary
        analysis.operators analysis.refLabels written.alts) definition
    have hnextKind : next.isLexerRule = false :=
      (congrArg isTokenName hnextName).trans ((hread.trans hkind).trans hparser)
    rw [heq, hnext]
    have hlexical : (grammar.withTokens tokens).Lexical := ⟨h.names, h.literals, h.references⟩
    exact hlexical.withRule ⟨htied.names, htied.places⟩ hrule hparser hnextKind

theorem Lexical.replaceRules (h : grammar.Lexical) (htied : grammar.Tied)
    (hsteady : grammar.Steady) (layout : Layout) (names : List String)
    (hnames : ∀ name ∈ names, isTokenName name = false) :
    (grammar.replaceRules layout names).1.Lexical := by
  induction names generalizing grammar with
  | nil => exact h
  | cons name names ih =>
      obtain ⟨hname, hnames⟩ := List.forall_mem_cons.mp hnames
      exact ih (h.replaceRule htied hsteady layout hname) (htied.replaceRule layout name)
        (hsteady.replaceRule layout name) hnames

/-- Token rules are still complete when left recursion has been eliminated. -/
theorem Lexical.eliminate (h : grammar.Lexical) (htied : grammar.Tied) (hsteady : grammar.Steady)
    (layout : Layout) : (grammar.eliminate layout).1.Lexical := by
  have hreplaced := h.replaceRules htied hsteady layout grammar.leftRecursiveRules (by
    intro name hname
    obtain ⟨rule, hrule, rfl⟩ := List.mem_map.mp hname
    have hparser := (List.mem_filter.mp (List.mem_filter.mp hrule).1).2
    rwa [Bool.not_eq_true'] at hparser)
  have hdefinitions : ∀ rule d, (grammar.eliminate layout).1.definition? rule = some d →
      ∃ d' names, (grammar.replaceRules layout grammar.leftRecursiveRules).1.definition? rule =
        some d' ∧ demandAny names d' = d := by
    intro rule d hd
    have hd : ((grammar.replaceRules layout grammar.leftRecursiveRules).1.source.rules.map
      (demandAny _))[rule.defIndex]? = some d := hd
    rw [List.getElem?_map] at hd
    obtain ⟨d', hd', hdemand⟩ := Option.map_eq_some_iff.mp hd
    exact ⟨d', _, hd', hdemand⟩
  refine ⟨hreplaced.names, fun rule hrule d hd => ?_, fun rule hrule d hd name hname => ?_⟩
  · obtain ⟨d', names, hd', rfl⟩ := hdefinitions rule d hd
    rw [literals_demandAny]
    exact hreplaced.literals rule hrule d' hd'
  · obtain ⟨d', names, hd', rfl⟩ := hdefinitions rule d hd
    rw [refNames_demandAny] at hname
    exact hreplaced.references rule hrule d' hd' name hname

end Elimination

end Grammar

end GrammarCompiler
