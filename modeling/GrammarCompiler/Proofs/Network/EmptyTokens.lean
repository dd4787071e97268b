import GrammarCompiler.Analysis
import GrammarCompiler.Proofs.Grammar.Nullable
import GrammarCompiler.Proofs.Network.Ends
import GrammarCompiler.Proofs.Network.Listed

/-!
# Token rules that match nothing are reported

The analysis of a lexer reports the token rules from whose start the search finds the end of the rule.
These are the nullable ones (`Grammar.mem_emptyTokens_iff`): the search finds the end if a run comes to
it without reading, the runs of a rule read what the rule derives, and what derives the empty text is
nullable. A fragment is not reported itself, but it makes the rules nullable that may call it alone.
-/

namespace GrammarCompiler

namespace Grammar

variable {grammar : Grammar}

/-- How a grammar is understood by its lexer. The types of tokens do not matter. -/
def lexerDialect (grammar : Grammar) : Dialect :=
  ⟨grammar, .empty, .lexer, fun _ _ => True⟩

theorem isLexer_lexerDialect (grammar : Grammar) : grammar.lexerDialect.IsLexer grammar :=
  ⟨rfl, rfl, fun _ _ => trivial⟩

/-- All that token rules refer to is there. -/
theorem Lexical.allResolve (h : grammar.Lexical) (hsteady : grammar.Steady) :
    Network.AllResolve grammar.lexerDialect := by
  intro rule hrule definition hdefinition node hnode name precedence hcalls
  have hname : node.refName? true = some name := by
    rw [Dialect.refName?_eq_calls?, show Dialect.calls? .lexer node = _ from hcalls]
    rfl
  obtain ⟨callee, hcallee, rfl⟩ := h.references rule hrule definition hdefinition name
    (List.mem_filterMap.mpr ⟨node, hnode, hname⟩)
  obtain ⟨found, hfound, hlexer⟩ := exists_rule?_of_lexer hcallee
  obtain ⟨called, hcalled⟩ := hsteady.definition (List.mem_of_find?_eq_some hfound)
  exact ⟨called, (isLexer_lexerDialect grammar).defines_iff.mpr ⟨found, hfound, hlexer, hcalled⟩⟩

section Lexer

variable {network : Network} {rule : Rule}

/-- The search behind the start of a token rule finds its end just if the rule is nullable. -/
theorem any_contains_ruleEnd_iff (hsteady : grammar.Steady) (hlexical : grammar.Lexical)
    (hhosts : network.Hosts grammar.lexerDialect) (hsearchable : network.Searchable)
    (hreads : ∀ id t, network.Inner id t → ¬network.Reads t Symbol.ruleEnd)
    (hrule : rule ∈ grammar.lexerRules) :
    ((network.ruleStarts[rule.index]?).any fun start =>
      (network.look start none none).contains Symbol.ruleEnd) = true ↔
      grammar.NullableRule rule := by
  have hresolves := hlexical.allResolve hsteady
  obtain ⟨definition, hdefinition⟩ := hsteady.definition (List.mem_filter.mp hrule).1
  obtain ⟨start, stop, hstart, hstop, hruns⟩ := hhosts.runs_iff hresolves hrule hdefinition
  obtain ⟨made, hhoused⟩ := hhosts.housed rule hrule definition hdefinition
  rw [hstart, Option.any_some, Network.contains_look_ruleEnd hsearchable hreads start 0,
    ← Dialect.DerivesRule.nil_iff (isLexer_lexerDialect grammar) hlexical hrule hdefinition 0]
  constructor
  · rintro ⟨stop', hstop', hrun⟩
    obtain ⟨-, k, hpath⟩ := Network.runs_iff_path.mp hrun
    exact hhosts.derivesRule (hhosts.known hresolves k)
      (hresolves rule hrule definition hdefinition) rfl hhoused hstart (Nat.le_refl k) hstop' hpath
  · intro hderives
    exact ⟨stop, hhosts.stops _ _ hstop, (hruns 0 []).mpr hderives⟩

/-- The token rules of a complete grammar that are reported are the nullable ones. -/
theorem mem_emptyTokens_iff (hsteady : grammar.Steady) (hlexical : grammar.Lexical)
    (vocabulary : Vocabulary)
    (hcycles : (Network.ofGrammar grammar vocabulary .lexer).cycles = []) :
    rule ∈ grammar.emptyTokens (Network.ofGrammar grammar vocabulary .lexer) ↔
      rule ∈ grammar.tokenRules ∧ grammar.NullableRule rule := by
  have hv : Vocabulary.empty.Fits := (Vocabulary.below_empty.fits (by decide)).1
  rw [Network.ofGrammar_lexer grammar vocabulary .empty] at hcycles ⊢
  obtain ⟨hsound, hsymbol, -⟩ := Network.sound_ofGrammar hsteady.numbered hv .lexer
  have hsearchable : (Network.ofGrammar grammar .empty .lexer).Searchable :=
    ⟨hsound.ruled, hsound.labels, by rw [hsymbol]; decide, hcycles⟩
  have hreads : ∀ id t, (Network.ofGrammar grammar .empty .lexer).Inner id t →
      ¬(Network.ofGrammar grammar .empty .lexer).Reads t Symbol.ruleEnd := fun id t ht hn =>
    absurd (Network.nonneg_of_reads hsteady.numbered hv ht hn) (by decide)
  have hhosts := Network.hosts_ofGrammar hsteady.numbered hv .lexer fun _ _ => True
  unfold emptyTokens
  rw [List.mem_filter]
  refine and_congr_right fun hrule => ?_
  exact any_contains_ruleEnd_iff hsteady hlexical hhosts hsearchable hreads
    (List.mem_filter.mp hrule).1

/-- What is found out about a lexer without cycles. -/
theorem analyzeNetwork_lexer (hkind : network.kind = .lexer) (hcycles : network.cycles = []) :
    grammar.analyzeNetwork network = ⟨true, [], (grammar.emptyTokens network).map fun rule =>
      grammar.issueAt .epsilonToken rule.nameToken [rule.name]⟩ := by
  unfold analyzeNetwork
  rw [hcycles, hkind]
  rfl

end Lexer

/-- In a grammar that has been collected and checked, and whose token rules refer to token rules only,
the analysis of the lexer reports each token rule once that can match the empty text, and nothing else.
It does so before and after the elimination of left recursion, if no rules call each other in a
cycle. -/
theorem epsilonTokens_exact {library : Library} {file source : String} {collected : Grammar}
    {report : Report} (hgather : gather library file source = (some collected, report))
    {checkAssoc : Bool} (hchecked : AllWarnings (collected.check checkAssoc))
    (htokens : collected.TokensOnly) {grammar : Grammar}
    (hgrammar : grammar = collected ∨ ∃ layout, grammar = (collected.eliminate layout).1)
    (vocabulary : Vocabulary) {network : Network}
    (hnetwork : network = Network.ofGrammar grammar vocabulary .lexer)
    (hcycles : network.cycles = []) :
    (grammar.analyzeNetwork network).completed = true ∧ ∃ rules : List Rule,
      (grammar.analyzeNetwork network).issues =
        rules.map (fun rule => grammar.issueAt .epsilonToken rule.nameToken [rule.name]) ∧
      rules.Sublist grammar.tokenRules ∧ (rules.map (·.name)).Nodup ∧
      ∀ rule, rule ∈ rules ↔ rule ∈ grammar.tokenRules ∧ grammar.NullableRule rule := by
  have hbuilt : collected.Built := .gathered hgather
  have hcollected := lexical_gather hgather hchecked htokens
  obtain ⟨hsteady, hlexical⟩ : grammar.Steady ∧ grammar.Lexical := by
    rcases hgrammar with rfl | ⟨layout, rfl⟩
    · exact ⟨hbuilt.steady, hcollected⟩
    · exact ⟨hbuilt.steady.eliminate layout,
        hcollected.eliminate hbuilt.tied hbuilt.steady layout⟩
  subst hnetwork
  have hkind : (Network.ofGrammar grammar vocabulary .lexer).kind = .lexer := by
    rw [Network.ofGrammar_lexer grammar vocabulary .empty]
    exact (Network.sound_ofGrammar hsteady.numbered
      (Vocabulary.below_empty.fits (by decide)).1 .lexer).2.2.1
  have hsub : (grammar.emptyTokens (Network.ofGrammar grammar vocabulary .lexer)).Sublist
      grammar.tokenRules := List.filter_sublist
  rw [analyzeNetwork_lexer hkind hcycles]
  refine ⟨rfl, _, rfl, hsub, ?_, fun rule =>
    mem_emptyTokens_iff hsteady hlexical vocabulary hcycles⟩
  exact hlexical.names.sublist ((hsub.trans List.filter_sublist).map _)

/-- A token rule that can leave everything out, next to one that cannot and a fragment that can, in a
grammar whose left recursion has been eliminated. -/
theorem epsilonTokens_exact_fragment :
    ∃ (collected : Grammar) (report : Report) (grammar : Grammar) (network : Network)
      (rules : List Rule),
      gather .empty "T.g"
        "grammar T; e : e X | Y ; X : 'x'* (F | Y) ; Y : 'y' F ; fragment F : ('f' | ) ;" =
          (some collected, report) ∧
      grammar = (collected.eliminate .standard).1 ∧
      network = Network.ofGrammar grammar (Vocabulary.ofGrammar grammar).1 .lexer ∧
      (grammar.analyzeNetwork network).issues.map (·.args) = [["X"]] ∧
      (grammar.analyzeNetwork network).issues =
        rules.map (fun rule => grammar.issueAt .epsilonToken rule.nameToken [rule.name]) ∧
      ∀ rule, rule ∈ rules ↔ rule ∈ grammar.tokenRules ∧ grammar.NullableRule rule := by
  have hgood : (gather .empty "T.g"
      "grammar T; e : e X | Y ; X : 'x'* (F | Y) ; Y : 'y' F ; fragment F : ('f' | ) ;").1.any
        fun collected =>
          let grammar := (collected.eliminate .standard).1
          let network := Network.ofGrammar grammar (Vocabulary.ofGrammar grammar).1 .lexer
          (collected.check true).isEmpty && (collected.TokensOnly && (network.cycles = [] &&
            (network.kind = .lexer && (grammar.tokenRules.filter fun rule =>
              (network.ruleStarts[rule.index]?).any fun start =>
                (network.lookListed start).contains Symbol.ruleEnd).map (·.name) = ["X"]))) := by
    decide +kernel
  obtain ⟨collected, hcollected, hgood⟩ := (Option.any_eq_true _ _).mp hgood
  simp only [Bool.and_eq_true, decide_eq_true_eq, List.isEmpty_iff, Network.lookListed_eq] at hgood
  obtain ⟨hchecked, htokens, hcycles, hkind, hnames⟩ := hgood
  have hgather : gather .empty "T.g"
      "grammar T; e : e X | Y ; X : 'x'* (F | Y) ; Y : 'y' F ; fragment F : ('f' | ) ;" =
        (some collected, _) := Prod.ext hcollected rfl
  have hwarnings : AllWarnings (collected.check true) := by
    rw [hchecked]
    exact nofun
  obtain ⟨-, rules, hissues, -, -, hrules⟩ := epsilonTokens_exact hgather hwarnings htokens
    (.inr ⟨.standard, rfl⟩) (Vocabulary.ofGrammar (collected.eliminate .standard).1).1 rfl hcycles
  refine ⟨collected, _, _, _, rules, hgather, rfl, rfl, ?_, hissues, hrules⟩
  -- the argument of an issue is the name of its rule
  have hargs := congrArg (List.map fun name => [name]) hnames
  rw [List.map_map] at hargs
  rw [analyzeNetwork_lexer hkind hcycles, List.map_map]
  exact hargs

end Grammar

end GrammarCompiler
