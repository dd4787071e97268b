import GrammarCompiler.Proofs.Network.Decisions
import GrammarCompiler.Proofs.Network.LeftRecursion

/-!
# What a compilation is made of

A grammar that compiles went through all steps without errors, so every part of the compilation is
what the step before makes of the parts there are (`Compilation.Made`). Without imports, all
decisions of its parser are found again (`Compilation.Decided`).
-/

namespace GrammarCompiler

def AllWarnings (issues : List Issue) : Prop :=
  ∀ issue ∈ issues, issue.severity = .warning

theorem Report.allWarnings_of_pass {report : Report} {u : Unit} (h : report.pass = .ok u) :
    AllWarnings report.issues := by
  unfold Report.pass at h
  split at h
  · cases h
  · next hcount =>
    intro issue hissue
    by_contra hsevere
    exact hcount (List.countP_pos_iff.mpr ⟨issue, hissue, decide_eq_true hsevere⟩)

theorem AllWarnings.append {issues issues' : List Issue} (h : AllWarnings (issues ++ issues')) :
    AllWarnings issues ∧ AllWarnings issues' :=
  List.forall_mem_append.mp h

namespace Grammar

/-- A grammar without imports is that of its text. -/
theorem parse_of_gather {library : Library} {file source : String} {grammar : Grammar}
    {report : Report} (h : gather library file source = (some grammar, report)) :
    ∃ definition, GrammarDef.parse file source = .ok definition ∧
      (definition.imports = [] → grammar = (ofDef file definition).collect.1) := by
  unfold gather Report.load at h
  dsimp only at h
  cases hparse : GrammarDef.parse file source with
  | error error => rw [hparse] at h; cases h
  | ok definition =>
      rw [hparse] at h
      refine ⟨definition, rfl, fun himports => ?_⟩
      unfold integrate at h
      dsimp only at h
      rw [show (ofDef file definition).source.imports = [] from himports] at h
      exact (Option.some.inj (Prod.mk.inj h).1).symm

end Grammar

/-- The parts of the compilation of a grammar whose rules have been collected. -/
structure Compilation.Made (compilation : Compilation) (options : CompileOptions)
    (collected : Grammar) : Prop where
  checked : AllWarnings (collected.check true)
  grammar : compilation.grammar = (collected.eliminate .standard).1
  eliminated : AllWarnings (collected.eliminate .standard).2.1
  names : compilation.eliminated = (collected.eliminate .standard).2.2
  vocabulary : compilation.vocabulary = (Vocabulary.ofGrammar compilation.grammar).1
  lexer : compilation.lexer = if compilation.grammar.lexerRules.isEmpty then none
    else some (Network.ofGrammar compilation.grammar compilation.vocabulary .lexer)
  parser : compilation.parser = if compilation.grammar.kind = .lexer then none
    else some (Network.ofGrammar compilation.grammar compilation.vocabulary .parser)
  analyzed : ∀ network ∈ compilation.parser,
    AllWarnings (compilation.grammar.analyzeNetwork network).issues ∧
      compilation.look = (compilation.grammar.analyzeNetwork network).look
  model : compilation.model = compilation.parser.map fun network =>
    (ParserModel.Source.mk compilation.grammar network compilation.vocabulary compilation.look
      options).model

/-- A grammar that compiles has been gathered and is compiled step by step. -/
theorem made_of_compile {options : CompileOptions} {library : Library} {file source : String}
    {compilation : Compilation} (h : compile options library file source = .ok compilation) :
    ∃ collected report, Grammar.gather library file source = (some collected, report) ∧
      compilation.Made options collected := by
  unfold compile at h
  obtain ⟨⟨grammar, report⟩, hread, h⟩ := ok_of_bind h
  obtain ⟨⟨collected, report'⟩, hcollect, h⟩ := ok_of_bind h
  dsimp only at h
  obtain ⟨u, hpass, h⟩ := ok_of_bind h
  obtain ⟨u', hpass', h⟩ := ok_of_bind h
  obtain rfl := Except.ok.inj h
  unfold collectAll at hcollect
  dsimp only at hcollect
  obtain ⟨u'', hpass'', hcollect⟩ := ok_of_bind hcollect
  obtain ⟨rfl, rfl⟩ := Prod.mk.inj (Except.ok.inj hcollect)
  have hgather : ∃ report, Grammar.gather library file source =
      (some grammar.collect.1, report) := by
    unfold readAll at hread
    unfold Grammar.gather
    cases hload : Report.empty.load file source with
    | mk definition report =>
        rw [hload] at hread
        cases definition with
        | none => cases hread
        | some definition =>
            dsimp only at hread ⊢
            obtain ⟨_, -, hread⟩ := ok_of_bind hread
            obtain ⟨rfl, rfl⟩ := Prod.mk.inj (Except.ok.inj hread)
            exact ⟨_, rfl⟩
  obtain ⟨report, hgather⟩ := hgather
  have hchecked := (Report.allWarnings_of_pass hpass'').append.2
  have heliminated := (Report.allWarnings_of_pass hpass).append.2
  have hfound := (Report.allWarnings_of_pass hpass').append.2
  refine ⟨_, report, hgather, hchecked, rfl, heliminated, rfl, rfl, rfl, rfl,
    fun network hnetwork => ?_, rfl⟩
  dsimp only at hnetwork hfound ⊢
  rw [Option.mem_def.mp hnetwork] at hfound ⊢
  exact ⟨hfound, rfl⟩

namespace Compilation.Made

variable {compilation : Compilation} {options : CompileOptions} {collected : Grammar}

/-- The lookahead of a compilation is that of its network, which has no cycles of left calls. -/
theorem look (h : compilation.Made options collected) (hcollected : collected.Built)
    (hv : compilation.vocabulary.Fits) {network : Network}
    (hnetwork : compilation.parser = some network) :
    network = Network.ofGrammar compilation.grammar compilation.vocabulary .parser ∧
      network.cycles = [] ∧ compilation.look = network.decisions.toList.map network.lookAt := by
  have hbuilt : compilation.grammar.Built := by
    rw [h.grammar]
    exact .eliminated _ hcollected
  have hparser := h.parser
  rw [hnetwork] at hparser
  obtain ⟨hissues, hlook⟩ := h.analyzed network hnetwork
  split at hparser
  · cases hparser
  · obtain rfl := Option.some.inj hparser
    obtain ⟨hsound, -, hkind, -⟩ := Network.sound_ofGrammar hbuilt.steady.numbered hv .parser
    obtain ⟨names, hnames, hfirst⟩ := hsound.names?_cycles
    have hcycles : (Network.ofGrammar compilation.grammar compilation.vocabulary .parser).cycles =
        [] := by
      by_contra hne
      obtain ⟨name, hname⟩ := hfirst hne
      unfold Grammar.analyzeNetwork at hissues
      dsimp only at hissues
      rw [if_pos (by simpa using hne), hnames, Option.getD_some] at hissues
      unfold Grammar.cycleIssue? at hissues
      rw [hname] at hissues
      have hwarning := hissues _ (List.mem_singleton.mpr rfl)
      cases hwarning
    refine ⟨rfl, hcycles, ?_⟩
    rw [hlook]
    unfold Grammar.analyzeNetwork
    rw [hcycles, hkind]
    rfl

/-- The rules of a grammar without imports are told apart to the end. -/
theorem apart (h : compilation.Made options collected) {library : Library}
    {file source : String} {report : Report}
    (hgather : Grammar.gather library file source = (some collected, report))
    {definition : GrammarDef} (hparse : GrammarDef.parse file source = .ok definition)
    (himports : definition.imports = []) : compilation.grammar.Apart := by
  obtain ⟨definition', hparse', hcollected⟩ := Grammar.parse_of_gather hgather
  obtain rfl := Except.ok.inj (hparse.symm.trans hparse')
  rw [h.grammar, hcollected himports]
  exact (Grammar.apart_collect hparse).eliminate _

end Compilation.Made

/-- The parser of a compilation, and the decisions that were made for its rules. -/
structure Compilation.Decided (compilation : Compilation) (options : CompileOptions)
    (network : Network) (made : List Network.Made) : Prop where
  fits : compilation.vocabulary.Fits
  steady : compilation.grammar.Steady
  ofGrammar : network = Network.ofGrammar compilation.grammar compilation.vocabulary .parser
  look : compilation.look = network.decisions.toList.map network.lookAt
  model : compilation.model = some (ParserModel.Source.mk compilation.grammar network
    compilation.vocabulary compilation.look options).model
  housed : Network.HousedAll compilation.grammar compilation.vocabulary .parser network
    compilation.grammar.parserRules made
  decisions : network.decisions.toList = made.map (·.2)
  found : ∀ (i : Nat) (m : Network.Made), made[i]? = some m →
    network.decisionAt? m.1.1 m.1.2 = some i

/-- If the constructs of the parser have keys of their own, its decisions are found again. -/
theorem decided_of_apart {options : CompileOptions} {library : Library} {file text : String}
    {compilation : Compilation} (hcompile : compile options library file text = .ok compilation)
    (hapart : compilation.grammar.ParserApart)
    (hsize : compilation.vocabulary.nextType ≤ Text.maxInt32)
    {network : Network} (hparser : compilation.parser = some network) :
    ∃ made, compilation.Decided options network made := by
  obtain ⟨collected, report, hgather, hmade⟩ := made_of_compile hcompile
  have hv : compilation.vocabulary.Fits := by
    rw [hmade.vocabulary] at hsize ⊢
    exact ((Vocabulary.below_ofGrammar _).fits hsize).1
  have hcollected : collected.Built := .gathered hgather
  have hbuilt : compilation.grammar.Built := by
    rw [hmade.grammar]
    exact .eliminated _ hcollected
  obtain ⟨hnetwork, -, hlook⟩ := hmade.look hcollected hv hparser
  obtain ⟨made, hhoused, hdecisions, hfound⟩ :=
    Network.decided_ofGrammar hbuilt.steady.numbered hapart hv
  rw [← hnetwork] at hhoused hdecisions hfound
  have hmodel : compilation.model = some (ParserModel.Source.mk compilation.grammar network
      compilation.vocabulary compilation.look options).model := by
    rw [hmade.model, hparser]
    rfl
  exact ⟨made, hv, hbuilt.steady, hnetwork, hlook, hmodel, hhoused, hdecisions, hfound⟩

/-- Without imports, the constructs of the parser have keys of their own. -/
theorem parserApart_of_compile {options : CompileOptions} {library : Library} {file text : String}
    {compilation : Compilation} (hcompile : compile options library file text = .ok compilation)
    {written : GrammarDef} (hparse : GrammarDef.parse file text = .ok written)
    (himports : written.imports = []) : compilation.grammar.ParserApart := by
  obtain ⟨collected, report, hgather, hmade⟩ := made_of_compile hcompile
  exact (hmade.apart hgather hparse himports).parser

namespace Compilation.Decided

variable {compilation : Compilation} {options : CompileOptions} {network : Network}
  {made : List Network.Made}

/-- The decision about a construct in a rule of the parser is found. -/
theorem found_of_key (h : compilation.Decided options network made) {rule : Rule}
    (hrule : rule ∈ compilation.grammar.parserRules) {definition : RuleDef}
    (hdefinition : compilation.grammar.definition? rule = some definition)
    {key : Nat × DecisionSite} (hkey : key ∈ definition.keys) :
    ∃ d, network.decisionAt? key.1 key.2 = some d := by
  have hmem : key ∈ made.map (·.1) := by
    rw [h.housed.keys]
    exact List.mem_flatMap.mpr ⟨_, List.mem_filterMap.mpr ⟨_, hrule, hdefinition⟩, hkey⟩
  obtain ⟨m, hm, rfl⟩ := List.mem_map.mp hmem
  obtain ⟨i, hi⟩ := List.mem_iff_getElem?.mp hm
  exact ⟨i, h.found i m hi⟩

end Compilation.Decided

end GrammarCompiler
