import GrammarCompiler.Proofs.Model.Layout
import GrammarCompiler.Proofs.Network.Listed

/-!
# Leaving all choices to prediction

A grammar can be compiled so that no choice is settled by the next token. The model is the same but
for the kinds of its choices and their tests (`ParserModel.forced`). So the runs of the one are those
of the other, as long as the choices lead the same ways (`runs_forced_iff`).

A test of the next token costs nothing while there is a token: where it leads, a run that reads the
token has to go. At the end of the input it may cost a run. There the tests do not know what comes
behind the rule that a parser was started with (`rendered_iff_forced`).
-/

namespace GrammarCompiler

namespace ChoiceKind

def opened : ChoiceKind → ChoiceKind
  | ll1AltBlock => altBlock
  | ll1OptionalBlock | ll1OptionalBlockSingleAlt => optionalBlock
  | ll1StarBlockSingleAlt => starBlock
  | ll1PlusBlockSingleAlt => plusBlock
  | kind => kind

@[simp]
theorem isStar_opened (kind : ChoiceKind) : kind.opened.isStar = kind.isStar := by
  cases kind <;> rfl

@[simp]
theorem isPlus_opened (kind : ChoiceKind) : kind.opened.isPlus = kind.isPlus := by
  cases kind <;> rfl

@[simp]
theorem isBlock_opened (kind : ChoiceKind) : kind.opened.isBlock = kind.isBlock := by
  cases kind <;> rfl

@[simp]
theorem isLL1_opened (kind : ChoiceKind) : kind.opened.isLL1 = false := by
  cases kind <;> rfl

theorem again_opened (kind : ChoiceKind) : kind.opened.again = kind.again.opened := by
  cases kind <;> rfl

theorem opened_choose (settled : Bool) (suffix : Option Suffix) (count : Nat) :
    (choose settled suffix count).opened = choose false suffix count := by
  unfold choose
  split <;> (repeat' split) <;> first | rfl | contradiction

end ChoiceKind

mutual
def Operation.forced : Operation → Operation
  | .choice choice => .choice choice.forced
  | .matchToken type label => .matchToken type label
  | .matchSet set invert => .matchSet set invert
  | .wildcard label => .wildcard label
  | .invoke rule precedence label => .invoke rule precedence label
  | .action text => .action text
  | .predicate text => .predicate text
  | .precedence precedence => .precedence precedence

def Operation.listForced : List Operation → List Operation
  | [] => []
  | op :: ops => op.forced :: Operation.listForced ops

def Choice.forced : Choice → Choice
  | ⟨kind, decision, alts, _⟩ => ⟨kind.opened, decision, AltCode.listForced alts, []⟩

def AltCode.forced : AltCode → AltCode
  | ⟨num, ops⟩ => ⟨num, Operation.listForced ops⟩

def AltCode.listForced : List AltCode → List AltCode
  | [] => []
  | alt :: alts => alt.forced :: AltCode.listForced alts
end

namespace Operation

theorem listForced_append (ops ops' : List Operation) :
    listForced (ops ++ ops') = listForced ops ++ listForced ops' := by
  induction ops with
  | nil => rfl
  | cons op ops ih => rw [List.cons_append, listForced, ih, listForced, List.cons_append]

end Operation

namespace AltCode

theorem listForced_eq_map (alts : List AltCode) : listForced alts = alts.map forced := by
  induction alts with
  | nil => rfl
  | cons alt alts ih => rw [listForced, ih, List.map_cons]

theorem ops_forced (alt : AltCode) : alt.forced.ops = Operation.listForced alt.ops := by
  cases alt
  rfl

theorem listForced_renumber (f : Nat → Nat) (alts : List AltCode) :
    listForced (alts.map fun alt => { alt with num := f alt.num }) =
      (listForced alts).map fun alt => { alt with num := f alt.num } := by
  rw [listForced_eq_map, listForced_eq_map, List.map_map, List.map_map]
  refine List.map_congr_left fun alt _ => ?_
  cases alt
  rfl

end AltCode

namespace Choice

theorem forced_eq (choice : Choice) : choice.forced =
    ⟨choice.kind.opened, choice.decision, AltCode.listForced choice.alts, []⟩ := by
  cases choice
  rfl

theorem kind_forced (choice : Choice) : choice.forced.kind = choice.kind.opened := by
  rw [forced_eq]

theorem alts_forced (choice : Choice) : choice.forced.alts = AltCode.listForced choice.alts := by
  rw [forced_eq]

theorem forced_again (choice : Choice) : choice.forced.again = choice.again.forced := by
  rw [forced_eq, forced_eq, again, again, ChoiceKind.again_opened]

theorem body_forced (choice : Choice) : choice.forced.body = Operation.listForced choice.body := by
  rw [body, alts_forced, body]
  induction choice.alts with
  | nil => rfl
  | cons alt alts ih =>
      rw [AltCode.listForced, List.flatMap_cons, ih, List.flatMap_cons,
        Operation.listForced_append, AltCode.ops_forced]

theorem behind_forced (choice : Choice) :
    choice.forced.behind = Operation.listForced choice.behind := by
  unfold behind
  rw [kind_forced, ChoiceKind.isStar_opened]
  split <;> rfl

end Choice

def RuleFunction.forced (function : RuleFunction) : RuleFunction :=
  { function with body := Operation.listForced function.body }

namespace ParserModel

def forced (model : ParserModel) : ParserModel :=
  { model with rules := model.rules.map (·.forced) }

mutual
theorem choices_forced : ∀ op : Operation, op.forced.choices = op.choices.map (·.forced)
  | .choice choice => by
      rw [Operation.forced, Operation.choices, Operation.choices, innerChoices_forced choice,
        List.map_cons]
  | .matchToken .. | .matchSet .. | .wildcard _ | .invoke .. | .action _ | .predicate _
  | .precedence _ => rfl

theorem listChoices_forced : ∀ ops : List Operation,
    Operation.listChoices (Operation.listForced ops) = (Operation.listChoices ops).map (·.forced)
  | [] => rfl
  | op :: ops => by
      rw [Operation.listForced, Operation.listChoices, Operation.listChoices, choices_forced op,
        listChoices_forced ops, List.map_append]

theorem innerChoices_forced : ∀ choice : Choice,
    choice.forced.innerChoices = choice.innerChoices.map (·.forced)
  | ⟨_, _, alts, _⟩ => by
      rw [Choice.forced, Choice.innerChoices, Choice.innerChoices, altChoices_forced alts]

theorem codeChoices_forced : ∀ alt : AltCode, alt.forced.choices = alt.choices.map (·.forced)
  | ⟨_, ops⟩ => by
      rw [AltCode.forced, AltCode.choices, AltCode.choices, listChoices_forced ops]

theorem altChoices_forced : ∀ alts : List AltCode,
    AltCode.listChoices (AltCode.listForced alts) = (AltCode.listChoices alts).map (·.forced)
  | [] => rfl
  | alt :: alts => by
      rw [AltCode.listForced, AltCode.listChoices, AltCode.listChoices, codeChoices_forced alt,
        altChoices_forced alts, List.map_append]
end

/-- No choice of such a model is settled by the next token. -/
theorem isLL1_of_mem_forced {model : ParserModel} {choice : Choice}
    (h : choice ∈ model.forced.choices) : choice.kind.isLL1 = false := by
  obtain ⟨function, hfunction, hchoice⟩ := List.mem_flatMap.mp h
  obtain ⟨function, -, rfl⟩ := List.mem_map.mp hfunction
  rw [RuleFunction.forced, listChoices_forced] at hchoice
  obtain ⟨choice, -, rfl⟩ := List.mem_map.mp hchoice
  rw [Choice.kind_forced, ChoiceKind.isLL1_opened]

/-! ## The model that is built -/

namespace Source

def forced (source : Source) : Source :=
  { source with options := { source.options with forcePrediction := true } }

section Forced

variable (source : Source)

theorem choice_forced (suffix : Option Suffix) (d : Nat) (alts : List AltCode) :
    source.forced.choice suffix d (AltCode.listForced alts) = (source.choice suffix d alts).forced := by
  have hkind : source.forced.choice suffix d (AltCode.listForced alts) =
      ⟨ChoiceKind.choose false suffix alts.length, d, AltCode.listForced alts, []⟩ := by
    have hlength : (AltCode.listForced alts).length = alts.length := by
      rw [AltCode.listForced_eq_map, List.length_map]
    have hopen : (ChoiceKind.choose false suffix alts.length).isLL1 = false := by
      rw [← ChoiceKind.opened_choose false, ChoiceKind.isLL1_opened]
    unfold choice
    dsimp only
    rw [show (!source.forced.options.forcePrediction) = false from rfl, Bool.and_false, hlength,
      hopen]
    rfl
  rw [hkind, Choice.forced_eq]
  show _ = Choice.mk (ChoiceKind.opened (ChoiceKind.choose ..)) d (AltCode.listForced alts) []
  rw [ChoiceKind.opened_choose]

theorem choiceAt_forced (token : Nat) (site : DecisionSite) (suffix : Option Suffix)
    (alts : List AltCode) :
    source.forced.choiceAt token site suffix (AltCode.listForced alts) =
      Operation.listForced (source.choiceAt token site suffix alts) := by
  unfold choiceAt
  rw [show source.forced.network = source.network from rfl]
  split
  · rw [choice_forced]
    rfl
  · rfl

theorem block_forced (token : Nat) (site : DecisionSite) (alts : List AltCode) :
    source.forced.block token site (AltCode.listForced alts) =
      Operation.listForced (source.block token site alts) := by
  match alts with
  | [] => exact choiceAt_forced source token site none []
  | [alt] => exact alt.ops_forced
  | alt :: alt' :: alts => exact choiceAt_forced source token site none (alt :: alt' :: alts)

theorem loopBody_forced (token : Nat) (site : DecisionSite) (num : Nat) (alts : List AltCode) :
    source.forced.loopBody token site num (AltCode.listForced alts) =
      AltCode.listForced (source.loopBody token site num alts) := by
  unfold loopBody
  rw [block_forced]
  rfl

theorem suffixed_forced (suffix : Suffix) (greedy : Bool) (token first : Nat)
    (alts : List AltCode) :
    source.forced.suffixed suffix greedy token first (AltCode.listForced alts) =
      Operation.listForced (source.suffixed suffix greedy token first alts) := by
  unfold suffixed
  cases suffix with
  | optional =>
      dsimp only
      rw [← AltCode.listForced_renumber (· + if greedy then 0 else 1), choiceAt_forced]
  | closure =>
      dsimp only
      rw [loopBody_forced, choiceAt_forced]
  | positiveClosure =>
      dsimp only
      rw [loopBody_forced, choiceAt_forced]

mutual
theorem element_forced : ∀ (e : Element) (label : Option String),
    source.forced.element label e = Operation.listForced (source.element label e)
  | .block alts options extent, label => by
      rw [Source.element, Source.element, alts_forced alts, block_forced]
  | .suffixed suffix greedy inner extent, label => by
      by_cases hblock : ∃ alts options x, inner = .block alts options x
      · obtain ⟨alts, options, x, rfl⟩ := hblock
        rw [Source.element, Source.element, alts_forced alts, suffixed_forced]
      · have hno : ∀ alts options x, inner = .block alts options x → False :=
          fun alts options x h => hblock ⟨alts, options, x, h⟩
        rw [Source.element, Source.element, element_forced inner]
        · exact suffixed_forced source suffix greedy _ _ [⟨1, source.element none inner⟩]
        · exact hno
        · exact hno
  | .labeled _ name _ inner _, label => by
      rw [Source.element, Source.element, element_forced inner]
  | .predicate code, label => by
      rw [Source.element, Source.element]
      split <;> rfl
  | .ruleRef _, _ | .tokenRef _ _ _, _ | .quotation _, _ | .range _ _ _, _ | .wildcard _ _, _
  | .not _ _, _ | .set _ _, _ | .action _, _ | .command _ _ _, _ | .epsilon _, _ => by
      rw [Source.element, Source.element]
      rfl

theorem elements_forced : ∀ es : List Element,
    source.forced.elements es = Operation.listForced (source.elements es)
  | [] => by
      rw [Source.elements, Source.elements]
      rfl
  | e :: es => by
      rw [Source.elements, Source.elements, element_forced e, elements_forced es,
        Operation.listForced_append]

theorem alts_forced : ∀ (alts : List Alt) (num : Nat),
    source.forced.alts num alts = AltCode.listForced (source.alts num alts)
  | [], num => by
      rw [Source.alts, Source.alts]
      rfl
  | ⟨elements, options, label, extent, info⟩ :: alts, num => by
      rw [Source.alts, Source.alts, alts_forced alts (num + 1), Source.alt, elements_forced elements]
      rfl
end

theorem rule_forced (rule : Rule) (definition : RuleDef) :
    source.forced.rule rule definition = (source.rule rule definition).forced := by
  unfold Source.rule RuleFunction.forced
  rw [alts_forced, block_forced]

/-- The model for prediction alone is the other one with its choices opened. -/
theorem model_forced : source.forced.model = source.model.forced := by
  unfold Source.model ParserModel.forced
  rw [List.map_filterMap]
  congr 1
  refine List.filterMap_congr fun rule _ => ?_
  show (source.grammar.definition? rule).map (source.forced.rule rule) =
    ((source.grammar.definition? rule).map (source.rule rule)).map (·.forced)
  rw [Option.map_map]
  refine congrArg (fun f => Option.map f _) (funext fun definition => ?_)
  exact rule_forced source rule definition

end Forced

end Source

end ParserModel

/-! ## Runs -/

/-- From a place on, a choice leads only where the next token leads the choice about the same
decision, if that is one of some choices and the token settles it. -/
def Policy.settledFrom (choices : List Choice) (start : Nat) : Policy :=
  fun place token _ choice way => start ≤ place → ∀ settled ∈ choices,
    settled.decision = choice.decision → settled.kind.isLL1 = true → settled.dispatch token = way

namespace ParserModel

section Runs

variable {model : ParserModel} {most : Int} {input : List Int} {p : Int} {ops : List Operation}
  {start i j : Nat} {trace : List Trace}

theorem function?_forced (name : String) :
    model.forced.function? name = (model.function? name).map (·.forced) := by
  unfold function? forced
  rw [List.find?_map]
  rfl

/-- The choices in steps are those of a model, or the rounds of their loops behind the first. -/
def Holds (model : ParserModel) (ops : List Operation) : Prop :=
  ∀ choice ∈ Operation.listChoices ops, ∃ known ∈ model.choices,
    choice = known ∨ choice = known.again

theorem Holds.left {ops' : List Operation} (h : model.Holds (ops ++ ops')) : model.Holds ops :=
  fun choice hchoice => h choice (by
    rw [Source.listChoices_append]
    exact List.mem_append_left _ hchoice)

theorem Holds.right {ops' : List Operation} (h : model.Holds (ops ++ ops')) : model.Holds ops' :=
  fun choice hchoice => h choice (by
    rw [Source.listChoices_append]
    exact List.mem_append_right _ hchoice)

theorem Holds.append {ops' : List Operation} (h : model.Holds ops) (h' : model.Holds ops') :
    model.Holds (ops ++ ops') := by
  intro choice hchoice
  rw [Source.listChoices_append] at hchoice
  exact (List.mem_append.mp hchoice).elim (h choice) (h' choice)

theorem Holds.head {op : Operation} (h : model.Holds (op :: ops)) : model.Holds [op] :=
  @Holds.left model [op] ops h

theorem Holds.tail {op : Operation} (h : model.Holds (op :: ops)) : model.Holds ops :=
  @Holds.right model [op] ops h

theorem Holds.of_function {name : String} {function : RuleFunction}
    (h : model.function? name = some function) : model.Holds function.body :=
  fun choice hchoice => ⟨choice, List.mem_flatMap.mpr ⟨function, List.mem_of_find?_eq_some h, hchoice⟩,
    .inl rfl⟩

theorem listChoices_of_mem {alts : List AltCode} {alt : AltCode} (halt : alt ∈ alts) :
    Operation.listChoices alt.ops ⊆ AltCode.listChoices alts := by
  induction alts with
  | nil => cases halt
  | cons first alts ih =>
      intro choice hchoice
      rw [AltCode.listChoices]
      rcases List.mem_cons.mp halt with rfl | halt
      · cases alt
        exact List.mem_append_left _ hchoice
      · exact List.mem_append_right _ (ih halt hchoice)

theorem Holds.known {choice : Choice} (h : model.Holds (.choice choice :: ops)) :
    ∃ known ∈ model.choices, choice = known ∨ choice = known.again := by
  refine h.head choice ?_
  rw [Source.listChoices_choice]
  exact List.mem_cons_self ..

theorem Holds.alt {choice : Choice} (h : model.Holds (.choice choice :: ops)) {alt : AltCode}
    (halt : alt ∈ choice.alts) : model.Holds alt.ops := by
  refine fun inner hinner => h.head inner ?_
  rw [Source.listChoices_choice]
  exact List.mem_cons_of_mem _ (listChoices_of_mem halt hinner)

theorem Holds.enter {choice : Choice} (h : model.Holds (.choice choice :: ops)) {alt : AltCode}
    (halt : alt ∈ choice.alts) : model.Holds (alt.ops ++ (choice.behind ++ ops)) := by
  refine (h.alt halt).append (.append ?_ h.tail)
  unfold Choice.behind
  split
  · exact h.head
  · exact nofun

theorem Holds.body {choice : Choice} (h : model.Holds (.choice choice :: ops)) :
    model.Holds choice.body := by
  have hall : ∀ alts : List AltCode, alts ⊆ choice.alts → model.Holds (alts.flatMap (·.ops)) := by
    intro alts
    induction alts with
    | nil => exact fun _ => nofun
    | cons alt alts ih =>
        intro hsub
        rw [List.flatMap_cons]
        exact (h.alt (hsub (List.mem_cons_self ..))).append
          (ih fun alt halt => hsub (List.mem_cons_of_mem _ halt))
  exact hall choice.alts (List.Subset.refl _)

theorem Holds.once {choice : Choice} (h : model.Holds (.choice choice :: ops))
    (hplus : choice.kind.isPlus = true) :
    model.Holds (choice.body ++ .choice choice.again :: ops) := by
  refine h.body.append (@Holds.append model [.choice choice.again] _ (fun inner hinner => ?_) h.tail)
  rw [Source.listChoices_choice] at hinner
  rcases List.mem_cons.mp hinner with rfl | hinner
  · obtain ⟨known, hknown, rfl | rfl⟩ := h.known
    · exact ⟨choice, hknown, .inr rfl⟩
    · -- a loop whose body has come is none that must come
      rw [Choice.again] at hplus
      cases hkind : known.kind <;> rw [hkind] at hplus <;> cases hplus
  · refine h.head inner ?_
    rw [Source.listChoices_choice]
    exact List.mem_cons_of_mem _ hinner

/-- What the next token settles in a model, it settles for the choices left open in the other. -/
theorem renderedFrom_iff (hnodup : (model.choices.map (·.decision)).Nodup) {choice : Choice}
    (h : ∃ known ∈ model.choices, choice = known ∨ choice = known.again) (place : Nat) (token : Int)
    (way : Option Nat) :
    Policy.renderedFrom start place token p choice way ↔
      Policy.settledFrom model.choices start place token p choice.forced way := by
  obtain ⟨known, hknown, hchoice⟩ := h
  have hll1 : choice.kind.isLL1 = known.kind.isLL1 := by
    rcases hchoice with rfl | rfl
    · rfl
    · exact ChoiceKind.isLL1_again _
  have hdispatch : choice.dispatch token = known.dispatch token := by
    rcases hchoice with rfl | rfl <;> rfl
  have hdecision : choice.forced.decision = known.decision := by
    rw [Choice.forced_eq]
    rcases hchoice with rfl | rfl <;> rfl
  unfold Policy.renderedFrom Policy.settledFrom
  rw [hll1, hdispatch, hdecision]
  constructor
  · intro h hstart settled hsettled heq hsettles
    obtain rfl := List.inj_on_of_nodup_map hnodup hsettled hknown heq
    exact h hsettles hstart
  · exact fun h hsettles hstart => h hstart known hknown rfl hsettles

theorem getElem?_alts_forced {choice : Choice} {k : Nat} {alt : AltCode}
    (h : choice.alts[k]? = some alt) : choice.forced.alts[k]? = some alt.forced := by
  rw [Choice.alts_forced, AltCode.listForced_eq_map, List.getElem?_map, h]
  rfl

/-- A run is one in the model whose choices are left to prediction, too. -/
theorem Runs.forced (hnodup : (model.choices.map (·.decision)).Nodup)
    (h : model.Runs most (.renderedFrom start) input p ops i j trace) : model.Holds ops →
      model.forced.Runs most (.settledFrom model.choices start) input p (Operation.listForced ops) i j
        trace := by
  induction h with
  | done => exact fun _ => .done
  | token ht _ ih => exact fun hholds => .token ht (ih hholds.tail)
  | set ht _ ih => exact fun hholds => .set ht (ih hholds.tail)
  | wildcard ht _ ih => exact fun hholds => .wildcard ht (ih hholds.tail)
  | @invoke _ rule _ _ _ function _ _ _ _ _ hf _ _ ihbody ih =>
      intro hholds
      have hforced : model.forced.function? rule = some function.forced := by
        rw [function?_forced, hf]
        rfl
      exact .invoke hforced (ihbody (.of_function hf)) (ih hholds.tail)
  | action _ ih => exact fun hholds => .action (ih hholds.tail)
  | predicate _ ih => exact fun hholds => .predicate (ih hholds.tail)
  | precedence hp _ ih => exact fun hholds => .precedence hp (ih hholds.tail)
  | enter hkind hway halt _ ih =>
      intro hholds
      have hruns := ih (hholds.enter (List.mem_of_getElem? halt))
      rw [Operation.listForced_append, Operation.listForced_append, ← Choice.behind_forced,
        ← AltCode.ops_forced] at hruns
      refine .enter ?_ ((renderedFrom_iff hnodup hholds.known ..).mp hway)
        (getElem?_alts_forced halt) hruns
      rw [Choice.kind_forced, ChoiceKind.isPlus_opened, hkind]
  | pass hkind hblock hway _ ih =>
      intro hholds
      refine .pass ?_ ?_ ((renderedFrom_iff hnodup hholds.known ..).mp hway) (ih hholds.tail)
      · rw [Choice.kind_forced, ChoiceKind.isPlus_opened, hkind]
      · rw [Choice.kind_forced, ChoiceKind.isBlock_opened, hblock]
  | once hkind _ ih =>
      intro hholds
      have hruns := ih (hholds.once hkind)
      rw [Operation.listForced_append, ← Choice.body_forced] at hruns
      refine .once ?_ ?_
      · rw [Choice.kind_forced, ChoiceKind.isPlus_opened, hkind]
      · rw [Choice.forced_again]
        exact hruns

theorem listForced_eq_cons {op : Operation} {ops rest : List Operation}
    (h : Operation.listForced ops = op :: rest) :
    ∃ op' rest', ops = op' :: rest' ∧ op'.forced = op ∧ Operation.listForced rest' = rest := by
  cases ops with
  | nil => cases h
  | cons op' rest' =>
      obtain ⟨hop, hrest⟩ := List.cons.inj h
      exact ⟨op', rest', rfl, hop, hrest⟩

theorem forced_eq_choice {op : Operation} {choice : Choice} (h : op.forced = .choice choice) :
    ∃ choice', op = .choice choice' ∧ choice'.forced = choice := by
  cases op with
  | choice choice' => exact ⟨choice', rfl, Operation.choice.inj h⟩
  | _ => cases h

theorem eq_of_forced {op op' : Operation} (h : op.forced = op')
    (hop : ∀ choice, op' ≠ .choice choice) : op = op' := by
  cases op with
  | choice choice => exact absurd h.symm (hop choice.forced)
  | _ => exact h

/-- A run in the model whose choices are left to prediction is one in the other model if the choices
lead the same ways. -/
theorem Runs.of_forced (hnodup : (model.choices.map (·.decision)).Nodup)
    {forcedOps : List Operation}
    (h : model.forced.Runs most (.settledFrom model.choices start) input p forcedOps i j trace) :
    ∀ {ops : List Operation}, Operation.listForced ops = forcedOps → model.Holds ops →
      model.Runs most (.renderedFrom start) input p ops i j trace := by
  -- all steps but choices are the same in both models
  have hsame : ∀ {op : Operation} {ops rest : List Operation},
      Operation.listForced ops = op :: rest → (∀ choice, op ≠ .choice choice) →
        ∃ rest', ops = op :: rest' ∧ Operation.listForced rest' = rest := by
    intro op ops rest hops hop
    obtain ⟨op', rest', rfl, hop', hrest⟩ := listForced_eq_cons hops
    exact ⟨rest', by rw [eq_of_forced hop' hop], hrest⟩
  induction h with
  | done =>
      intro ops hops _
      cases ops with
      | nil => exact .done
      | cons => cases hops
  | token ht _ ih =>
      intro ops hops hholds
      obtain ⟨rest, rfl, hrest⟩ := hsame hops nofun
      exact .token ht (ih hrest hholds.tail)
  | set ht _ ih =>
      intro ops hops hholds
      obtain ⟨rest, rfl, hrest⟩ := hsame hops nofun
      exact .set ht (ih hrest hholds.tail)
  | wildcard ht _ ih =>
      intro ops hops hholds
      obtain ⟨rest, rfl, hrest⟩ := hsame hops nofun
      exact .wildcard ht (ih hrest hholds.tail)
  | invoke hf _ _ ihbody ih =>
      intro ops hops hholds
      obtain ⟨rest, rfl, hrest⟩ := hsame hops nofun
      rw [function?_forced] at hf
      obtain ⟨function, hfunction, rfl⟩ := Option.map_eq_some_iff.mp hf
      exact .invoke hfunction (ihbody rfl (.of_function hfunction)) (ih hrest hholds.tail)
  | action _ ih =>
      intro ops hops hholds
      obtain ⟨rest, rfl, hrest⟩ := hsame hops nofun
      exact .action (ih hrest hholds.tail)
  | predicate _ ih =>
      intro ops hops hholds
      obtain ⟨rest, rfl, hrest⟩ := hsame hops nofun
      exact .predicate (ih hrest hholds.tail)
  | precedence hp _ ih =>
      intro ops hops hholds
      obtain ⟨rest, rfl, hrest⟩ := hsame hops nofun
      exact .precedence hp (ih hrest hholds.tail)
  | enter hkind hway halt _ ih =>
      intro ops hops hholds
      obtain ⟨op, rest, rfl, hop, rfl⟩ := listForced_eq_cons hops
      obtain ⟨choice, rfl, rfl⟩ := forced_eq_choice hop
      rw [Choice.kind_forced, ChoiceKind.isPlus_opened] at hkind
      rw [Choice.alts_forced, AltCode.listForced_eq_map, List.getElem?_map] at halt
      obtain ⟨alt, halt', rfl⟩ := Option.map_eq_some_iff.mp halt
      refine .enter hkind ((renderedFrom_iff hnodup hholds.known ..).mpr hway) halt'
        (ih ?_ (hholds.enter (List.mem_of_getElem? halt')))
      rw [Operation.listForced_append, Operation.listForced_append, ← Choice.behind_forced,
        ← AltCode.ops_forced]
  | pass hkind hblock hway _ ih =>
      intro ops hops hholds
      obtain ⟨op, rest, rfl, hop, rfl⟩ := listForced_eq_cons hops
      obtain ⟨choice, rfl, rfl⟩ := forced_eq_choice hop
      rw [Choice.kind_forced, ChoiceKind.isPlus_opened] at hkind
      rw [Choice.kind_forced, ChoiceKind.isBlock_opened] at hblock
      exact .pass hkind hblock ((renderedFrom_iff hnodup hholds.known ..).mpr hway)
        (ih rfl hholds.tail)
  | once hkind _ ih =>
      intro ops hops hholds
      obtain ⟨op, rest, rfl, hop, rfl⟩ := listForced_eq_cons hops
      obtain ⟨choice, rfl, rfl⟩ := forced_eq_choice hop
      rw [Choice.kind_forced, ChoiceKind.isPlus_opened] at hkind
      refine .once hkind (ih ?_ (hholds.once hkind))
      rw [Operation.listForced_append, ← Choice.body_forced, Choice.forced_again]
      rfl

/-- A function accepts the same in both models if the choices lead the same ways. -/
theorem accepts_forced_iff (hnodup : (model.choices.map (·.decision)).Nodup) {name : String}
    {function : RuleFunction} (hfunction : model.function? name = some function) :
    model.Accepts most (.renderedFrom start) function p input ↔
      model.forced.Accepts most (.settledFrom model.choices start) function.forced p input := by
  constructor
  · rintro ⟨trace, hruns⟩
    exact ⟨trace, hruns.forced hnodup (.of_function hfunction)⟩
  · rintro ⟨trace, hruns⟩
    exact ⟨trace, hruns.of_forced hnodup rfl (.of_function hfunction)⟩

/-- A choice that the end of the input does not settle in favour of an alternative, one of which
must come, fails there. -/
theorem not_accepts_nil {function : RuleFunction} {choice : Choice}
    (hbody : function.body = [.choice choice]) (hll1 : choice.kind.isLL1 = true)
    (hblock : choice.kind.isBlock = true) (hnone : choice.dispatch Symbol.eof = none) :
    ¬model.Accepts most .rendered function p [] := by
  rintro ⟨trace, hruns⟩
  rw [hbody] at hruns
  cases hruns with
  | enter _ hway _ _ => exact nomatch hnone.symm.trans (hway hll1 (Nat.zero_le _))
  | pass _ hblock' _ _ => exact nomatch hblock.symm.trans hblock'
  | once hplus _ => exact nomatch (ChoiceKind.isPlus_of_isBlock hblock).symm.trans hplus

/-- Left to prediction, it may call a rule that reads nothing. -/
theorem accepts_forced_nil {function callee : RuleFunction} {choice inner : Choice}
    {alt : AltCode} {name : String} {label : Option String}
    (hbody : function.body = [.choice choice]) (hblock : choice.kind.isBlock = true)
    (halt : choice.alts[0]? = some alt) (hops : alt.ops = [.invoke name none label])
    (hcallee : model.function? name = some callee) (hinner : callee.body = [.choice inner])
    (hplus : inner.kind.isPlus = false) (hoption : inner.kind.isBlock = false) :
    model.forced.Accepts most .rendered function.forced p [] := by
  have hopen : ∀ (choice : Choice) (way : Option Nat),
      Policy.rendered 0 (tokenAt [] 0) p choice.forced way := fun choice way hll1 => by
    rw [Choice.kind_forced, ChoiceKind.isLL1_opened] at hll1
    cases hll1
  have hcalled : model.forced.function? name = some callee.forced := by
    rw [function?_forced, hcallee]
    rfl
  have hbehind : choice.forced.behind = [] := by
    unfold Choice.behind
    rw [Choice.kind_forced, ChoiceKind.isStar_opened, ChoiceKind.isStar_of_isBlock hblock]
    rfl
  refine ⟨[.call name []], ?_⟩
  show model.forced.Runs most .rendered [] p (Operation.listForced function.body) 0 0 _
  rw [hbody]
  refine .enter ?_ (hopen choice (some 0)) (getElem?_alts_forced halt) ?_
  · rw [Choice.kind_forced, ChoiceKind.isPlus_opened, ChoiceKind.isPlus_of_isBlock hblock]
  · rw [AltCode.ops_forced, hops, hbehind]
    refine .invoke hcalled ?_ .done
    show model.forced.Runs most .rendered [] _ (Operation.listForced callee.body) 0 0 _
    rw [hinner]
    refine .pass ?_ ?_ (fun hll1 => ?_) .done
    · rw [Choice.kind_forced, ChoiceKind.isPlus_opened, hplus]
    · rw [Choice.kind_forced, ChoiceKind.isBlock_opened, hoption]
    · rw [Choice.kind_forced, ChoiceKind.isLL1_opened] at hll1
      cases hll1

end Runs

end ParserModel

/-! ## Compilations -/

/-- A grammar compiles for prediction alone if it compiles, and only the model is another one. -/
theorem compile_forced {options : CompileOptions} {library : Library} {file text : String}
    {compilation : Compilation} (h : compile options library file text = .ok compilation) :
    compile { options with forcePrediction := true } library file text = .ok { compilation with
      model := compilation.parser.map fun network =>
        (compilation.source options network).forced.model } := by
  unfold compile at h ⊢
  obtain ⟨⟨grammar, report⟩, hread, h⟩ := ok_of_bind h
  obtain ⟨⟨collected, report'⟩, hcollect, h⟩ := ok_of_bind h
  dsimp only at h
  obtain ⟨u, hpass, h⟩ := ok_of_bind h
  obtain ⟨u', hpass', h⟩ := ok_of_bind h
  obtain rfl := Except.ok.inj h
  exact bind_of_ok hread (bind_of_ok hcollect (bind_of_ok hpass (bind_of_ok hpass' rfl)))

/-- The model of a compilation can be computed: its tests come from lookahead, which can. -/
theorem model_listed {options : CompileOptions} {library : Library} {file text : String}
    {compilation : Compilation} (hcompile : compile options library file text = .ok compilation)
    (hsize : compilation.vocabulary.nextType ≤ Text.maxInt32) {network : Network}
    (hparser : compilation.parser = some network) :
    compilation.model = some (ParserModel.Source.mk compilation.grammar network
      compilation.vocabulary (network.decisions.toList.map network.lookAtListed) options).model := by
  obtain ⟨collected, report, hgather, hmade⟩ := made_of_compile hcompile
  have hv : compilation.vocabulary.Fits := by
    rw [hmade.vocabulary] at hsize ⊢
    exact ((Vocabulary.below_ofGrammar _).fits hsize).1
  obtain ⟨-, -, hlook⟩ := hmade.look (.gathered hgather) hv hparser
  rw [hmade.model, hparser, hlook, Network.lookAtListed_eq]
  rfl

/-- The choices of a model whose decisions are found are about decisions of their own. -/
theorem Compilation.Decided.nodup_choices {compilation : Compilation} {options : CompileOptions}
    {network : Network} {made : List Network.Made}
    (h : compilation.Decided options network made) :
    ((compilation.source options network).model.choices.map (·.decision)).Nodup := by
  obtain ⟨source, hsource⟩ : ∃ source, source = compilation.source options network := ⟨_, rfl⟩
  have hfound : source.Found made := by
    intro m hm
    obtain ⟨i, hi⟩ := List.mem_iff_getElem?.mp hm
    exact ⟨i, hsource ▸ h.found i m hi⟩
  rw [← hsource]
  obtain ⟨answers, hperm, hall⟩ := ParserModel.Source.answers_housedAll
    (show Network.HousedAll source.grammar source.vocabulary .parser source.network
      source.grammar.parserRules made by subst hsource; exact h.housed) (fun _ h => h)
    (show ∀ definition ∈ source.grammar.source.rules, definition.isFormed = true by
      subst hsource; exact h.steady.formed) hfound
  refine (hperm.map (·.decision)).nodup_iff.mpr ?_
  rw [List.nodup_iff_getElem?_ne_getElem?]
  -- the choice in a place answers the decision of that number
  have hat : ∀ (i : Nat) (d : Nat), (answers.map (·.decision))[i]? = some d → d = i := by
    intro i d hd
    rw [List.getElem?_map] at hd
    obtain ⟨choice, hchoice, rfl⟩ := Option.map_eq_some_iff.mp hd
    obtain ⟨hlt, rfl⟩ := List.getElem?_eq_some_iff.mp hchoice
    have hlt' : i < made.length := hall.length_eq ▸ hlt
    obtain ⟨rule, -, definition, -, hanswers⟩ := hall.get hlt hlt'
    have hdecision := h.found i _ (List.getElem?_eq_getElem hlt')
    subst hsource
    exact Option.some.inj (hanswers.decision.symm.trans hdecision)
  intro i j hij hj heq
  have hj := List.getElem?_eq_getElem hj
  rw [hj] at heq
  exact Nat.ne_of_lt hij ((hat i _ heq).symm.trans (hat j _ hj))

open ParserModel.Source (RangeFree) in
/-- As long as there is a token, it decides as well as prediction does. At the end of the input a
choice that one token settles leads where the end of the input is looked for. -/
theorem rendered_iff_forced {options : CompileOptions} {library : Library} {file text : String}
    {compilation : Compilation} (hcompile : compile options library file text = .ok compilation)
    (hapart : compilation.grammar.ParserApart)
    (hsize : compilation.vocabulary.nextType ≤ Text.maxInt32)
    {network : Network} (hparser : compilation.parser = some network)
    (hfree : ∀ rule ∈ compilation.grammar.parserRules, ∀ definition,
      compilation.grammar.definition? rule = some definition → RangeFree definition.nodes) :
    ∃ (forced : Compilation) (model forcedModel : ParserModel),
      compile { options with forcePrediction := true } library file text = .ok forced ∧
      compilation.model = some model ∧ forced.model = some forcedModel ∧
      (∀ choice ∈ forcedModel.choices, choice.kind.isLL1 = false) ∧
      ∀ rule ∈ compilation.grammar.parserRules, ∃ function forcedFunction : RuleFunction,
        model.function? rule.name = some function ∧
        forcedModel.function? rule.name = some forcedFunction ∧ ∀ (p : Int) (w : List Int),
          model.Accepts compilation.vocabulary.maxType .rendered function p w ↔
            forcedModel.Accepts forced.vocabulary.maxType (.settledFrom model.choices w.length)
              forcedFunction p w := by
  obtain ⟨made, hdecided⟩ := decided_of_apart hcompile hapart hsize hparser
  have hwired := wired_of_compile hcompile hapart hsize hparser hfree
  have hnodup := hdecided.nodup_choices
  obtain ⟨source, hsource⟩ : ∃ source, source = compilation.source options network := ⟨_, rfl⟩
  rw [← hsource] at hwired hnodup
  have hmax : source.network.maxSymbol = compilation.vocabulary.maxType := by
    subst hsource
    show network.maxSymbol = _
    rw [hdecided.ofGrammar]
    exact (Network.sound_ofGrammar hdecided.steady.numbered hdecided.fits .parser).2.1
  refine ⟨_, source.model, source.model.forced, compile_forced hcompile, ?_, ?_,
    fun choice hchoice => ParserModel.isLL1_of_mem_forced hchoice, fun rule hrule => ?_⟩
  · rw [hsource]
    exact hdecided.model
  · rw [hparser, ← ParserModel.Source.model_forced, hsource]
    rfl
  · obtain ⟨definition, hdefinition⟩ :=
      hdecided.steady.definition (List.mem_of_mem_filter hrule)
    obtain ⟨function, hfunction⟩ : ∃ function, source.model.function? rule.name = some function := by
      refine Option.isSome_iff_exists.mp (List.find?_isSome.mpr
        ⟨source.rule rule definition, List.mem_filterMap.mpr ⟨rule, ?_, ?_⟩, beq_self_eq_true _⟩)
      · subst hsource
        exact hrule
      · subst hsource
        exact congrArg (Option.map _) hdefinition
    refine ⟨function, function.forced, hfunction, ?_, fun p w => ?_⟩
    · rw [ParserModel.function?_forced, hfunction]
      rfl
    · rw [← hmax, hwired.accepts_iff (List.mem_of_find?_eq_some hfunction) p w]
      exact ParserModel.accepts_forced_iff hnodup hfunction

/-- Choices between alternatives, in a loop and about an option, that one token settles. -/
theorem rendered_iff_forced_nested :
    ∃ (compilation forced : Compilation) (model forcedModel : ParserModel),
      compile {} .empty "T.g" "parser grammar T; s : (A | B C?)* D s | E ;" = .ok compilation ∧
      compile { forcePrediction := true } .empty "T.g"
        "parser grammar T; s : (A | B C?)* D s | E ;" = .ok forced ∧
      compilation.model = some model ∧ forced.model = some forcedModel ∧
      model.choices.countP (·.kind.isLL1) = 4 ∧ forcedModel.choices.countP (·.kind.isLL1) = 0 ∧
      ∃ function forcedFunction : RuleFunction, model.function? "s" = some function ∧
        forcedModel.function? "s" = some forcedFunction ∧ ∀ (p : Int) (w : List Int),
          model.Accepts compilation.vocabulary.maxType .rendered function p w ↔
            forcedModel.Accepts forced.vocabulary.maxType (.settledFrom model.choices w.length)
              forcedFunction p w := by
  have hgood :
      (compile {} .empty "T.g" "parser grammar T; s : (A | B C?)* D s | E ;").toOption.any
        fun compilation => compilation.vocabulary.nextType ≤ Text.maxInt32 &&
          compilation.grammar.ParserApart &&
          (compilation.grammar.parserRules.all fun rule =>
            (compilation.grammar.definition? rule).all fun definition =>
              definition.nodes.all (·.kind != .range)) &&
          compilation.grammar.parserRules.any (·.name == "s") &&
          compilation.parser.any fun network => (ParserModel.Source.mk compilation.grammar network
            compilation.vocabulary (network.decisions.toList.map network.lookAtListed)
              {}).model.choices.countP (·.kind.isLL1) = 4 := by
    decide +kernel
  obtain ⟨compilation, hcompile, hgood⟩ := (Option.any_eq_true _ _).mp hgood
  simp only [Bool.and_eq_true] at hgood
  obtain ⟨⟨⟨⟨hsize, hapart⟩, hfree⟩, hrule⟩, hparser⟩ := hgood
  obtain ⟨network, hnetwork, hcount⟩ := (Option.any_eq_true _ _).mp hparser
  obtain ⟨rule, hrule, hname⟩ := List.any_eq_true.mp hrule
  have hcompile := ok_of_toOption hcompile
  obtain ⟨forced, model, forcedModel, hforced, hmodel, hforcedModel, hopen, hrules⟩ :=
    rendered_iff_forced hcompile (of_decide_eq_true hapart) (of_decide_eq_true hsize) hnetwork
      fun rule hrule definition hdefinition node hnode => by
        have hrules := List.all_eq_true.mp hfree rule hrule
        rw [hdefinition] at hrules
        exact bne_iff_ne.mp (List.all_eq_true.mp hrules node hnode)
  obtain ⟨function, forcedFunction, hfunction, hforcedFunction, haccepts⟩ := hrules rule hrule
  rw [eq_of_beq hname] at hfunction hforcedFunction
  refine ⟨compilation, forced, model, forcedModel, hcompile, hforced, hmodel, hforcedModel, ?_,
    List.countP_eq_zero.mpr fun choice hchoice => ?_, function, forcedFunction, hfunction,
    hforcedFunction, haccepts⟩
  · have hlisted := model_listed hcompile (of_decide_eq_true hsize) hnetwork
    rw [hmodel] at hlisted
    rw [Option.some.inj hlisted]
    exact of_decide_eq_true hcount
  · rw [hopen choice hchoice]
    exact Bool.false_ne_true

/-- The choice that is all there is in a body. -/
def Operation.onlyChoice? : List Operation → Option Choice
  | [.choice only] => some only
  | _ => none

/-- The rule whose call, at no precedence, is all there is in a body. -/
def Operation.onlyCall? : List Operation → Option String
  | [.invoke name none _] => some name
  | _ => none

theorem Operation.eq_of_onlyChoice? {ops : List Operation} {choice : Choice}
    (h : onlyChoice? ops = some choice) : ops = [.choice choice] := by
  unfold onlyChoice? at h
  split at h
  · obtain rfl := Option.some.inj h
    rfl
  · cases h

theorem Operation.eq_of_onlyCall? {ops : List Operation} {name : String}
    (h : onlyCall? ops = some name) : ∃ label, ops = [.invoke name none label] := by
  unfold onlyCall? at h
  split at h
  · obtain rfl := Option.some.inj h
    exact ⟨_, rfl⟩
  · cases h

/-- A rule that reads nothing if nothing is left: where prediction may enter it at the end of the
input, the test of the next token fails. -/
theorem rendered_forced_end :
    ∃ (compilation forced : Compilation) (model forcedModel : ParserModel)
      (function forcedFunction : RuleFunction),
      compile {} .empty "T.g" "parser grammar T; s : x | B ; x : A? ;" = .ok compilation ∧
      compile { forcePrediction := true } .empty "T.g" "parser grammar T; s : x | B ; x : A? ;" =
        .ok forced ∧
      compilation.model = some model ∧ forced.model = some forcedModel ∧
      model.function? "s" = some function ∧ forcedModel.function? "s" = some forcedFunction ∧
      forcedModel.Accepts forced.vocabulary.maxType .rendered forcedFunction 0 [] ∧
      ¬model.Accepts compilation.vocabulary.maxType .rendered function 0 [] := by
  have hgood :
      (compile {} .empty "T.g" "parser grammar T; s : x | B ; x : A? ;").toOption.any
        fun compilation => compilation.vocabulary.nextType ≤ Text.maxInt32 &&
          compilation.parser.any fun network =>
            let model := (ParserModel.Source.mk compilation.grammar network compilation.vocabulary
              (network.decisions.toList.map network.lookAtListed) {}).model
            (model.function? "s").any fun function =>
              (Operation.onlyChoice? function.body).any fun choice => choice.kind.isLL1 &&
                choice.kind.isBlock && (choice.dispatch Symbol.eof).isNone &&
                (choice.alts[0]?).any fun alt => (Operation.onlyCall? alt.ops).any fun name =>
                  (model.function? name).any fun callee =>
                    (Operation.onlyChoice? callee.body).any fun inner =>
                      !inner.kind.isPlus && !inner.kind.isBlock := by
    decide +kernel
  obtain ⟨compilation, hcompile, hgood⟩ := (Option.any_eq_true _ _).mp hgood
  have hcompile := ok_of_toOption hcompile
  obtain ⟨hsize, hgood⟩ := (Bool.and_eq_true _ _).mp hgood
  obtain ⟨network, hparser, hgood⟩ := (Option.any_eq_true _ _).mp hgood
  have hmodel := model_listed hcompile (of_decide_eq_true hsize) hparser
  obtain ⟨function, hfunction, hgood⟩ := (Option.any_eq_true _ _).mp hgood
  obtain ⟨collected, report, -, hmade⟩ := made_of_compile hcompile
  have hsource : compilation.model = some (compilation.source {} network).model := by
    rw [hmade.model, hparser]
    rfl
  generalize (ParserModel.Source.mk compilation.grammar network compilation.vocabulary
    (network.decisions.toList.map network.lookAtListed) {}).model = model at hmodel hfunction hgood
  obtain rfl := Option.some.inj (hmodel.symm.trans hsource)
  have hforced := compile_forced hcompile
  rw [hparser, Option.map_some, ParserModel.Source.model_forced] at hforced
  have hforcedFunction :=
    @ParserModel.function?_forced (compilation.source {} network).model "s"
  rw [hfunction, Option.map_some] at hforcedFunction
  obtain ⟨choice, hchoice, hgood⟩ := (Option.any_eq_true _ _).mp hgood
  have hbody := Operation.eq_of_onlyChoice? hchoice
  simp only [Bool.and_eq_true, Option.isNone_iff_eq_none] at hgood
  obtain ⟨⟨⟨hll1, hblock⟩, hnone⟩, halt⟩ := hgood
  refine ⟨compilation, _, _, _, function, function.forced, hcompile, hforced, hmodel, rfl, hfunction,
    hforcedFunction, ?_, ParserModel.not_accepts_nil hbody hll1 hblock hnone⟩
  obtain ⟨alt, halt, hops⟩ := (Option.any_eq_true _ _).mp halt
  obtain ⟨name, hname, hinner⟩ := (Option.any_eq_true _ _).mp hops
  obtain ⟨label, hcall⟩ := Operation.eq_of_onlyCall? hname
  obtain ⟨callee, hcallee, hinner⟩ := (Option.any_eq_true _ _).mp hinner
  obtain ⟨inner, honly, hinner⟩ := (Option.any_eq_true _ _).mp hinner
  have hoption := Operation.eq_of_onlyChoice? honly
  simp only [Bool.and_eq_true, Bool.not_eq_true'] at hinner
  exact ParserModel.accepts_forced_nil hbody hblock halt hcall hcallee hoption hinner.1 hinner.2

end GrammarCompiler
