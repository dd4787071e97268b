import GrammarCompiler.Compile
import GrammarCompiler.Proofs.Ast.Changes
import GrammarCompiler.Proofs.Grammar.Numbered
import GrammarCompiler.Proofs.Recursion.Heading

/-!
# Grammars that are built

A grammar comes from a text and those it imports, and then changes only by the elimination of
left recursion (`Grammar.Built`). All along its rules are numbered for each kind on its own
(`Grammar.Numbered`): a rule that takes the place of another takes its number, and its kind too,
since its text is read back under the same name.
-/

namespace GrammarCompiler

open TokenTree (flats)

/-! ## Names of definitions -/

theorem RuleDef.Spelled.isName {rule : RuleDef} {i : Nat} {ts : List TokenTree}
    (h : rule.Spelled i ts)
    (hnames : ∀ text, Lexeme.leaf (.ident text) ∈ flats ts → Text.isName text = true) :
    Text.isName rule.name = true := by
  obtain ⟨-, -, mark, heading, body, p, joint, joint', q, r, rfl, -⟩ := h
  exact hnames _ (by simp)

theorem RulesSpelled.isName {rules : List RuleDef} {i : Nat} {ts : List TokenTree}
    (h : RulesSpelled i ts rules)
    (hnames : ∀ text, Lexeme.leaf (.ident text) ∈ flats ts → Text.isName text = true) :
    ∀ rule ∈ rules, Text.isName rule.name = true := by
  induction rules generalizing i ts with
  | nil => exact nofun
  | cons rule rules ih =>
      obtain ⟨front, back, rfl, hrule, hrules⟩ := h
      refine List.forall_mem_cons.mpr ⟨hrule.isName fun text htext => ?_, ih hrules
        fun text htext => ?_⟩
      · exact hnames text (by simp [htext])
      · exact hnames text (by simp [htext])

/-- The rules of a text are named by names. -/
theorem GrammarDef.isName_of_parse {file source : String} {g : GrammarDef}
    (h : GrammarDef.parse file source = .ok g) :
    ∀ rule ∈ g.rules, Text.isName rule.name = true := by
  unfold GrammarDef.parse at h
  obtain ⟨trees, htrees, h⟩ := ok_of_bind h
  obtain ⟨-, front, back, hsplit, hspelled⟩ := Cursor.takes_grammar h
  refine hspelled.isName fun text htext => ?_
  refine TokenTree.isName_of_parse (readTrees_eq_ok.mp htrees) ?_
  rw [show trees = front ++ back from hsplit, TokenTree.flats_append]
  exact List.mem_append_right _ htext

namespace LeftRecursion

theorem name_link (lr : LeftRecursion) (rule : RuleDef) : (lr.link rule).2.name = rule.name := by
  unfold link
  split
  · rfl
  · rfl

end LeftRecursion

namespace Grammar

/-! ## What stays -/

/-- What every change of a grammar keeps: definitions are named by names and formed, rules have
definitions of their kind, and they are numbered. -/
structure Steady (grammar : Grammar) : Prop where
  names : ∀ definition ∈ grammar.source.rules, Text.isName definition.name = true
  formed : ∀ definition ∈ grammar.source.rules, definition.isFormed = true
  kinds : ∀ rule ∈ grammar.rules, ∀ definition, grammar.definition? rule = some definition →
    definition.isLexerRule = rule.isLexerRule
  defined : ∀ rule ∈ grammar.rules, rule.defIndex < grammar.source.rules.length
  numbered : grammar.Numbered

theorem Steady.definition {grammar : Grammar} (h : grammar.Steady) {rule : Rule}
    (hrule : rule ∈ grammar.rules) : ∃ definition, grammar.definition? rule = some definition :=
  ⟨_, List.getElem?_eq_getElem (h.defined rule hrule)⟩

/-- Collecting rules makes them from their definitions. -/
theorem collectFrom_definition (grammar : Grammar) (definitions : List (RuleDef × Nat))
    (before : List Rule) :
    ∀ rule ∈ (grammar.collectFrom before definitions).1, ∃ definition index,
      (definition, rule.defIndex) ∈ definitions ∧
        rule = Rule.ofDef definition rule.defIndex index := by
  induction definitions generalizing before with
  | nil => exact nofun
  | cons definition definitions ih =>
      obtain ⟨definition, place⟩ := definition
      intro rule hrule
      rw [collectFrom] at hrule
      split at hrule
      · obtain ⟨d, index, hd, hmade⟩ := ih before rule hrule
        exact ⟨d, index, List.mem_cons_of_mem _ hd, hmade⟩
      · rcases List.mem_cons.mp hrule with rfl | hrule
        · exact ⟨definition, _, List.mem_cons_self .., rfl⟩
        · obtain ⟨d, index, hd, hmade⟩ := ih _ rule hrule
          exact ⟨d, index, List.mem_cons_of_mem _ hd, hmade⟩

/-- A rule that has been collected is made from its definition. -/
theorem exists_ofDef_collect {grammar : Grammar} {rule : Rule}
    (hrule : rule ∈ grammar.collect.1.rules) {definition : RuleDef}
    (hdefinition : grammar.collect.1.definition? rule = some definition) :
    ∃ index, rule = Rule.ofDef definition rule.defIndex index := by
  obtain ⟨d, index, hd, hmade⟩ :=
    grammar.collectFrom_definition grammar.source.rules.zipIdx [] rule hrule
  have hplace := List.mem_zipIdx_iff_getElem?.mp hd
  obtain rfl : d = definition := Option.some.inj (hplace.symm.trans hdefinition)
  exact ⟨index, hmade⟩

/-- Rules are collected in the order of their definitions. -/
theorem places_collectFrom (grammar : Grammar) (definitions : List (RuleDef × Nat))
    (before : List Rule) :
    ((grammar.collectFrom before definitions).1.map (·.defIndex)).Sublist
      (definitions.map (·.2)) := by
  induction definitions generalizing before with
  | nil => exact .refl _
  | cons definition definitions ih =>
      obtain ⟨definition, place⟩ := definition
      rw [collectFrom]
      split
      · exact (ih before).cons _
      · exact (ih _).cons_cons _

theorem steady_collect {grammar : Grammar}
    (h : ∀ definition ∈ grammar.source.rules,
      Text.isName definition.name = true ∧ definition.isFormed = true) :
    grammar.collect.1.Steady := by
  have hfound := grammar.collectFrom_definition grammar.source.rules.zipIdx []
  refine ⟨fun d hd => (h d hd).1, fun d hd => (h d hd).2,
    fun rule hrule definition hdefinition => ?_, fun rule hrule => ?_,
    numbered_collect grammar⟩
  · obtain ⟨index, hmade⟩ := exists_ofDef_collect hrule hdefinition
    rw [hmade]
    rfl
  · obtain ⟨d, -, hd, -⟩ := hfound rule hrule
    exact (List.getElem?_eq_some_iff.mp (List.mem_zipIdx_iff_getElem?.mp hd)).1

/-! ## Imports -/

section Imports

variable {P : RuleDef → Prop}

/-- What moving a rule keeps is true of all rules once it is true of all rules that are read. -/
theorem forall_takeIn (hshift : ∀ rule offset, P rule → P (rule.shift offset))
    {source other : GrammarDef} (hsource : ∀ rule ∈ source.rules, P rule)
    (hother : ∀ rule ∈ other.rules, P rule) : ∀ rule ∈ (takeIn source other).rules, P rule := by
  have htokens : ∀ (names : List String) (g : GrammarDef),
      (names.foldl takeToken g).rules = g.rules := by
    intro names
    induction names with
    | nil => exact fun _ => rfl
    | cons name names ih =>
        intro g
        rw [List.foldl_cons, ih]
        unfold takeToken
        split <;> rfl
  have hrules : ∀ (rules : List RuleDef) (g : GrammarDef) (offset : Nat),
      (∀ rule ∈ rules, P rule) → (∀ rule ∈ g.rules, P rule) →
        ∀ rule ∈ (rules.foldl (takeRule offset) g).rules, P rule := by
    intro rules
    induction rules with
    | nil => exact fun g offset _ hg => hg
    | cons rule rules ih =>
        intro g offset hall hg
        obtain ⟨hrule, hrest⟩ := List.forall_mem_cons.mp hall
        refine ih _ offset hrest ?_
        unfold takeRule
        split
        · intro other hother
          rcases List.mem_append.mp hother with hold | hnew
          · exact hg other hold
          · obtain rfl := List.mem_singleton.mp hnew
            exact hshift rule offset hrule
        · exact hg
  unfold takeIn
  rw [htokens]
  exact hrules other.rules _ _ hother hsource

end Imports

/-! ## Gathering -/

section Gathering

variable {P : GrammarDef → Prop}

theorem parse_of_load {report report' : Report} {file source : String} {g : GrammarDef}
    (hload : report.load file source = (some g, report')) :
    GrammarDef.parse file source = .ok g := by
  unfold Report.load at hload
  dsimp only at hload
  split at hload
  · next hparse =>
      obtain rfl := Option.some.inj (Prod.mk.inj hload).1
      exact hparse
  · cases hload

theorem forall_integrate (htake : ∀ g other, P g → P other → P (takeIn g other))
    (hread : ∀ {file source g}, GrammarDef.parse file source = .ok g → P g)
    (library : Library) (grammar : Grammar) (report : Report) (h : P grammar.source) :
    P (grammar.integrate library report).1.source := by
  unfold integrate
  generalize grammar.source.imports = wanted
  induction wanted generalizing grammar report with
  | nil => exact h
  | cons name wanted ih =>
      rw [List.foldl_cons]
      generalize hone : importOne library (grammar, report) name = state
      obtain ⟨grammar', report'⟩ := state
      refine ih grammar' report' ?_
      unfold importOne at hone
      dsimp only at hone
      split at hone
      · obtain ⟨rfl, -⟩ := Prod.mk.inj hone
        exact h
      · split at hone
        · obtain ⟨rfl, -⟩ := Prod.mk.inj hone
          exact h
        · next other report'' hload =>
            obtain ⟨rfl, -⟩ := Prod.mk.inj hone
            exact htake _ _ h (hread (parse_of_load hload))

/-- What is true of all texts, and stays true when one takes in another, is true of what a grammar is
collected from. -/
theorem exists_collect_of_taken (htake : ∀ g other, P g → P other → P (takeIn g other))
    (hread : ∀ {file source g}, GrammarDef.parse file source = .ok g → P g)
    {library : Library} {file source : String} {grammar : Grammar} {report : Report}
    (h : gather library file source = (some grammar, report)) :
    ∃ whole : Grammar, grammar = whole.collect.1 ∧ P whole.source := by
  unfold gather at h
  split at h
  · cases h
  · next definition report' hload =>
      obtain rfl := Option.some.inj (Prod.mk.inj h).1
      exact ⟨_, rfl, forall_integrate htake hread library _ _ (hread (parse_of_load hload))⟩

end Gathering

/-- The rules of a grammar that is gathered are collected from definitions that were read, moved or
not. -/
theorem exists_collect_of_gather {P : RuleDef → Prop}
    (hshift : ∀ rule offset, P rule → P (rule.shift offset))
    (hread : ∀ {file source g}, GrammarDef.parse file source = .ok g → ∀ rule ∈ g.rules, P rule)
    {library : Library} {file source : String} {grammar : Grammar} {report : Report}
    (h : gather library file source = (some grammar, report)) :
    ∃ whole : Grammar, grammar = whole.collect.1 ∧ ∀ rule ∈ whole.source.rules, P rule :=
  exists_collect_of_taken (P := fun g => ∀ rule ∈ g.rules, P rule)
    (fun _ _ => forall_takeIn hshift) hread h

/-- A grammar whose rules have just been collected. -/
theorem steady_gather {library : Library} {file source : String} {grammar : Grammar}
    {report : Report} (h : gather library file source = (some grammar, report)) :
    grammar.Steady := by
  have hread : ∀ {file source g}, GrammarDef.parse file source = .ok g →
      ∀ rule ∈ g.rules, Text.isName rule.name = true ∧ rule.isFormed = true :=
    fun hparse rule hrule => ⟨GrammarDef.isName_of_parse hparse rule hrule,
      GrammarDef.isFormed_of_parse hparse rule hrule⟩
  obtain ⟨whole, rfl, hall⟩ := exists_collect_of_gather
    (fun rule offset hrule => ⟨hrule.1, (rule.isFormed_shift offset).trans hrule.2⟩) hread h
  exact steady_collect hall

/-! ## Replacing rules -/

/-- The place of a rule. -/
theorem getElem?_findIdx {grammar : Grammar} {name : String} {rule : Rule}
    (hrule : grammar.rule? name = some rule) :
    grammar.rules[grammar.rules.findIdx (·.name == rule.name)]? = some rule := by
  rw [name_of_rule? hrule, ← List.find?_eq_getElem?_findIdx]
  exact hrule

/-- What a rule has in common with the one it stands for stays in its place. -/
theorem map_set_findIdx {α : Type} {f : Rule → α} {grammar : Grammar} {name : String}
    {rule next : Rule} (hrule : grammar.rule? name = some rule) (hnext : f next = f rule) :
    (grammar.rules.set (grammar.rules.findIdx (·.name == rule.name)) next).map f =
      grammar.rules.map f := by
  obtain ⟨hlt, hget⟩ := List.getElem?_eq_some_iff.mp (getElem?_findIdx hrule)
  have hlt' := hlt
  rw [← List.length_map (f := f)] at hlt'
  rw [List.map_set, hnext, ← List.set_getElem_self hlt', List.getElem_map, hget, List.set_set]

def withTokens (grammar : Grammar) (tokens : TokenTable) : Grammar :=
  { grammar with source := { grammar.source with tokens } }

theorem Steady.withTokens {grammar : Grammar} (h : grammar.Steady) (tokens : TokenTable) :
    (grammar.withTokens tokens).Steady :=
  ⟨h.names, h.formed, h.kinds, h.defined, h.numbered⟩

/-- A rule gives way to one of its kind. -/
theorem Steady.replaceBy {grammar : Grammar} (h : grammar.Steady) {name : String} {rule : Rule}
    {written definition : RuleDef} (hrule : grammar.rule? name = some rule)
    (hwritten : grammar.definition? rule = some written)
    (hname : Text.isName definition.name = true) (hformed : definition.isFormed = true)
    (hkind : definition.isLexerRule = written.isLexerRule) (lr : LeftRecursion) :
    (grammar.replaceBy rule lr definition).1.Steady := by
  have hmem : rule ∈ grammar.rules := List.mem_of_find?_eq_some hrule
  obtain ⟨-, hsame⟩ := lr.keys_link { definition with nameToken := rule.nameToken }
  unfold Grammar.replaceBy
  generalize hlinked : lr.link { definition with nameToken := rule.nameToken } = linked at hsame
  obtain ⟨lr', definition'⟩ := linked
  have hdefname : definition'.name = definition.name := by
    have := lr.name_link { definition with nameToken := rule.nameToken }
    rw [hlinked] at this
    exact this
  have hkind' : definition'.isLexerRule = rule.isLexerRule := by
    unfold RuleDef.isLexerRule at hkind ⊢
    rw [hdefname, hkind]
    exact h.kinds rule hmem written hwritten
  dsimp only
  generalize hnext : ({ (Rule.ofDef definition' rule.defIndex rule.index).addLabels
    (lr'.refLabels.map RefLabel.labelDef) with leftRecursion := some lr' } : Rule) = next
  have hnextKind : next.isLexerRule = rule.isLexerRule := by
    subst hnext
    exact hkind'
  have hnextIndex : next.index = rule.index := by
    subst hnext
    rfl
  have hnextPlace : next.defIndex = rule.defIndex := by
    subst hnext
    rfl
  refine ⟨?_, ?_, ?_, ?_, h.numbered.congr ?_⟩
  · intro d hd
    rcases List.mem_or_eq_of_mem_set hd with hd | rfl
    · exact h.names d hd
    · rw [hdefname]
      exact hname
  · intro d hd
    rcases List.mem_or_eq_of_mem_set hd with hd | rfl
    · exact h.formed d hd
    · exact hsame.trans hformed
  · intro r hr d hdefinition
    have hd : (grammar.source.rules.set rule.defIndex definition')[r.defIndex]? = some d :=
      hdefinition
    clear hdefinition
    have hplaces : ∀ r ∈ grammar.rules,
        (grammar.source.rules.set rule.defIndex definition')[r.defIndex]? = some d →
        d.isLexerRule = r.isLexerRule := by
      intro r hr hd
      rw [List.getElem?_set] at hd
      split at hd
      · next hplace =>
          split at hd
          · obtain rfl := Option.some.inj hd
            rw [hkind', ← h.kinds rule hmem written hwritten]
            refine h.kinds r hr written ?_
            unfold definition?
            rw [← hplace]
            exact hwritten
          · cases hd
      · exact h.kinds r hr d hd
    rcases List.mem_or_eq_of_mem_set hr with hr | rfl
    · exact hplaces r hr hd
    · rw [hnextPlace] at hd
      rw [hnextKind]
      exact hplaces rule hmem hd
  · intro r hr
    have hlength : ((grammar.setDefinition rule.defIndex definition').setRule rule.name
        next).source.rules.length = grammar.source.rules.length := List.length_set ..
    rw [hlength]
    rcases List.mem_or_eq_of_mem_set hr with hr | rfl
    · exact h.defined r hr
    · rw [hnextPlace]
      exact h.defined rule hmem
  · -- the new rule has the kind and the number of the one it stands for
    show (grammar.rules.set (grammar.rules.findIdx (·.name == rule.name)) next).map _ = _
    exact map_set_findIdx hrule (f := fun r => (r.isLexerRule, r.index))
      (by rw [hnextKind, hnextIndex])

/-- What becomes of a rule that may be replaced: it stays, or it gives way to one that has been read
from its text. -/
theorem replaceRule_cases (grammar : Grammar) (layout : Layout) (name : String) :
    ((grammar.replaceRule layout name).done = false ∧
      ((grammar.replaceRule layout name).grammar = grammar ∨ ∃ source text : String,
        (grammar.replaceRule layout name).grammar =
          grammar.withTokens (RuleDef.parse source text grammar.tokens).2)) ∨
    ∃ rule written issues analysis definition tokens,
      grammar.rule? name = some rule ∧ grammar.definition? rule = some written ∧
      grammar.analyze written = (issues, .ok analysis) ∧
      RuleDef.parse s!"<{rule.name} precedence rule>" (layout.rule (analysis.operatorRule written))
        grammar.tokens = (.ok definition, tokens) ∧
      ∃ next, (grammar.withTokens tokens).replaceBy rule (LeftRecursion.ofInfos analysis.primary
          analysis.operators analysis.refLabels written.alts) definition = next ∧
        grammar.replaceRule layout name = ⟨next.1, issues ++ next.2, true⟩ := by
  unfold replaceRule
  split
  · exact .inl ⟨rfl, .inl rfl⟩
  · next rule hrule =>
      split
      · exact .inl ⟨rfl, .inl rfl⟩
      · next written hwritten =>
          split
          · exact .inl ⟨rfl, .inl rfl⟩
          · next issues analysis hanalyze =>
              unfold replaceAnalyzed
              dsimp only
              split
              · exact .inl ⟨rfl, .inr ⟨_, _, rfl⟩⟩
              · next definition hparse =>
                  exact .inr ⟨rule, written, issues, analysis, definition, _, hrule, hwritten,
                    hanalyze, Prod.ext hparse rfl, _, rfl, rfl⟩

/-- A rule that is read from the text of another has a name of its kind. -/
theorem kind_of_parse {layout : Layout} {analysis : RuleAnalysis} {written definition : RuleDef}
    (hwritten : Text.isName written.name = true) {source : String} {table tokens : TokenTable}
    (h : RuleDef.parse source (layout.rule (analysis.operatorRule written)) table =
      (.ok definition, tokens)) :
    Text.isName definition.name = true ∧ definition.isLexerRule = written.isLexerRule := by
  unfold RuleDef.isLexerRule
  rw [@RuleDef.name_of_parse layout (analysis.operatorRule written) hwritten _ _ _ _ h]
  unfold OperatorRule.nameRead
  split
  · next hlost =>
      rw [show written.name = "fragment" from hlost.1]
      decide
  · exact ⟨hwritten, rfl⟩

theorem Steady.replaceRule {grammar : Grammar} (h : grammar.Steady) (layout : Layout)
    (name : String) : (grammar.replaceRule layout name).grammar.Steady := by
  rcases grammar.replaceRule_cases layout name with ⟨-, hsame | ⟨_, _, hsame⟩⟩ |
    ⟨rule, written, issues, analysis, definition, tokens, hrule, hwritten, -, hparse, _, rfl, heq⟩
  · rw [hsame]
    exact h
  · rw [hsame]
    exact h.withTokens _
  · obtain ⟨hname, hkind⟩ := kind_of_parse (h.names written (List.mem_of_getElem? hwritten)) hparse
    rw [heq]
    exact (h.withTokens tokens).replaceBy hrule hwritten hname (RuleDef.isFormed_of_parse hparse)
      hkind _

theorem Steady.replaceRules {grammar : Grammar} (h : grammar.Steady) (layout : Layout)
    (names : List String) : (grammar.replaceRules layout names).1.Steady := by
  induction names generalizing grammar with
  | nil => exact h
  | cons name names ih =>
      rw [Grammar.replaceRules]
      exact ih (h.replaceRule layout name)

theorem Steady.eliminate {grammar : Grammar} (h : grammar.Steady) (layout : Layout) :
    (grammar.eliminate layout).1.Steady := by
  have hreplaced := h.replaceRules layout grammar.leftRecursiveRules
  unfold Grammar.eliminate
  dsimp only
  refine ⟨?_, ?_, ?_, fun rule hrule => ?_, hreplaced.numbered⟩
  · intro d hd
    obtain ⟨d', hd', rfl⟩ := List.mem_map.mp hd
    exact hreplaced.names d' hd'
  · intro d hd
    obtain ⟨d', hd', rfl⟩ := List.mem_map.mp hd
    exact (keys_demandAny _ d').2.trans (hreplaced.formed d' hd')
  · intro rule hrule d hd
    have hd : ((grammar.replaceRules layout grammar.leftRecursiveRules).1.source.rules.map
      (demandAny _))[rule.defIndex]? = some d := hd
    rw [List.getElem?_map] at hd
    obtain ⟨d', hd', rfl⟩ := Option.map_eq_some_iff.mp hd
    exact hreplaced.kinds rule hrule d' hd'
  · exact Nat.lt_of_lt_of_eq (hreplaced.defined rule hrule) (List.length_map ..).symm

/-! ## Grammars that are built -/

/-- The grammars there are: those gathered from texts, and what becomes of them when left
recursion is eliminated from one rule or from all. -/
inductive Built : Grammar → Prop
  | gathered {library : Library} {file source : String} {grammar : Grammar} {report : Report} :
      gather library file source = (some grammar, report) → Built grammar
  | replaced {grammar : Grammar} (layout : Layout) (name : String) :
      Built grammar → Built (grammar.replaceRule layout name).grammar
  | eliminated {grammar : Grammar} (layout : Layout) :
      Built grammar → Built (grammar.eliminate layout).1

theorem exists_gather_of_any {library : Library} {file source : String} {p : Grammar → Bool}
    (h : (gather library file source).1.any p = true) :
    ∃ grammar report, gather library file source = (some grammar, report) ∧ p grammar = true := by
  obtain ⟨grammar, hgrammar, hp⟩ := (Option.any_eq_true _ _).mp h
  exact ⟨grammar, _, Prod.ext hgrammar rfl, hp⟩

theorem Built.steady {grammar : Grammar} (h : grammar.Built) : grammar.Steady := by
  induction h with
  | gathered h => exact steady_gather h
  | replaced layout name _ ih => exact ih.replaceRule layout name
  | eliminated layout _ ih => exact ih.eliminate layout

end Grammar

end GrammarCompiler
