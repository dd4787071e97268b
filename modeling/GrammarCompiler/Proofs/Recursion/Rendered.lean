import GrammarCompiler.Proofs.Grammar.Texts
import GrammarCompiler.Proofs.Recursion.Demanded
import GrammarCompiler.Proofs.Recursion.Located

/-!
# The blocks of a new rule

Every alternative of a rule that was replaced is shown by one alternative of the new rule, and every
alternative of the new rule shows one (`Grammar.Unrolls.shows_of_mem_primary`,
`Grammar.Unrolls.exists_shows_primary`, and the same for operators). Behind an action or a guard comes a
row that renders what goes over from the alternative (`RuleDef.Renders`): the same elements but for
their options, with references that demand what they should, and no predicates that test a precedence.
-/

namespace GrammarCompiler

open Network (precedenceIn?)

/-! ## Level rows -/

/-- The precedence that a predicate tests. -/
def Element.tested? : Element → Option Int
  | .predicate code => precedenceIn? code.options
  | _ => none

theorem Element.tested?_unplaced (e : Element) : e.unplaced.tested? = e.tested? := by
  cases e <;> rfl

theorem Element.tested?_copied (e : Element) : e.copied.tested? = e.tested? := by
  cases e <;> rfl

theorem Element.tested?_demanding (count : Nat) (name : String) (precedence : Nat) (e : Element)
    (seen : Nat) : (e.mapOptions (demanding count name precedence) seen).2.tested? = e.tested? := by
  cases e <;> rfl

theorem Element.tested?_demandingAny (names : List String) (e : Element) (s : Unit) :
    (e.mapOptions (demandingAny names) s).2.tested? = e.tested? := by
  cases e <;> rfl

theorem LacksOptions.tested {nodes : List Element} (h : LacksOptions nodes) :
    nodes.filterMap Element.tested? = [] := by
  refine List.filterMap_eq_nil_iff.mpr fun e he => ?_
  cases e with
  | predicate code =>
      show precedenceIn? code.options = none
      rw [show code.options = .none from h _ he]
      rfl
  | _ => rfl

theorem LacksOptions.isLevel {nodes : List Element} (h : LacksOptions nodes) :
    ∀ node ∈ nodes, node.IsLevel := by
  intro e he
  have hnone := h e he
  cases e with
  | ruleRef ref =>
      show (precedenceIn? ref.options).getD 0 = 0
      rw [show ref.options = .none from hnone]
      rfl
  | predicate code =>
      show precedenceIn? code.options = none
      rw [show code.options = .none from hnone]
      rfl
  | _ => trivial

/-- Elements are level if their predicates test nothing and their references demand 0 at most. -/
theorem isLevel_of_demands {nodes : List Element}
    (hrefs : ∀ mark ∈ (ruleRefs nodes).map RuleRef.mark, mark.demands = [] ∨ mark.demands = ["0"])
    (htested : nodes.filterMap Element.tested? = []) : ∀ node ∈ nodes, node.IsLevel := by
  intro e he
  cases e with
  | ruleRef ref =>
      have hmem : ref ∈ ruleRefs nodes := List.mem_filterMap.mpr ⟨_, he, rfl⟩
      have hdemands : ref.options.values precedenceOption = [] ∨
          ref.options.values precedenceOption = ["0"] := hrefs ref.mark (List.mem_map_of_mem hmem)
      show ((ref.options.get? precedenceOption).bind Text.precedence?).getD 0 = 0
      rw [Options.get?_eq]
      rcases hdemands with hdemands | hdemands
      · rw [hdemands]
        rfl
      · rw [hdemands]
        decide
  | predicate code => exact List.filterMap_eq_nil_iff.mp htested _ he
  | _ => trivial

/-! ## Rows of the new rule -/

theorem Element.mapListOptions_eq_map (f : Unit → Element → Unit × Options) (es : List Element) :
    (Element.mapListOptions f () es).2 = es.map fun e => (e.mapOptions f ()).2 := by
  induction es with
  | nil => rfl
  | cons e es ih => exact congrArg (_ :: ·) ih

/-- Whether a row stands for the alternative with a number of a rule: it is a copy of what goes over
from the alternative, in which references demand what they should. -/
structure RuleDef.Renders (rule : RuleDef) (names : List String) (num : Nat) (row : List Element) :
    Prop where
  bare : Element.allBare row = Element.allBare (rule.carried num)
  marks : (ruleRefs (Element.listNodes row)).map RuleRef.mark = rule.marksOf names num
  untested : (Element.listNodes row).filterMap Element.tested? = []

theorem map_mark_ruleRefs (nodes : List Element) :
    (ruleRefs nodes).map RuleRef.mark = nodes.filterMap Element.refMark? := by
  unfold ruleRefs
  rw [List.map_filterMap]
  rfl

section Rebuilt

variable {rule : RuleDef} {num : Nat} {origin : Alt} {shape : AltShape}
  (h : rule.HandsOver num origin shape) (hcommands : LacksCommands rule.nodes) (grammar : Grammar)

include h hcommands

/-- What stands for an alternative is a copy of what remains of it. -/
theorem RuleDef.HandsOver.rebuilt : grammar.rebuilt rule num =
    Element.allCopied (origin.remainder rule.name shape
      (shape.demand (grammar.assocOf origin).1 (precedenceOf rule.alts.length num))).elements := by
  unfold Grammar.rebuilt
  rw [h.get]
  dsimp only
  rw [h.shaped]
  exact Alt.asRead_remainder h.shaped (h.carried ▸ hcommands.carried num) _ _

theorem RuleDef.HandsOver.tested_rebuilt (hoptions : LacksOptions rule.nodes) :
    (Element.listNodes (grammar.rebuilt rule num)).filterMap Element.tested? = [] := by
  have hcarried : (Element.listNodes (origin.kept rule.name shape).elements).filterMap Element.tested? =
      [] := by
    rw [Alt.elements_kept h.shaped, ← h.carried]
    exact LacksOptions.tested fun e he => hoptions e (h.nodes_subset he)
  rw [h.rebuilt hcommands, Element.allCopied, Element.filterMap_allRecast Element.tested?_copied]
  cases shape.demand (grammar.assocOf origin).1 (precedenceOf rule.alts.length num) with
  | none => exact hcarried
  | some precedence =>
      rw [← Alt.nodes_eq]
      refine (Alt.filterMap_mapOptions (Element.tested?_demanding _ rule.name precedence)
        (origin.kept rule.name shape) 0).trans ?_
      rw [Alt.nodes_eq]
      exact hcarried

/-- A row that is what stands for an alternative but for its places renders the alternative once its
references demand 0. -/
theorem RuleDef.HandsOver.renders (hoptions : LacksOptions rule.nodes) (names : List String)
    {row : List Element} (hrow : Element.allUnplaced row = grammar.rebuilt rule num) :
    rule.Renders names num (Element.mapListOptions (demandingAny names) () row).2 := by
  refine ⟨?_, ?_, ?_⟩
  · rw [Element.allBare_mapOptions, ← grammar.allBare_rebuilt (hcommands.carried num), ← hrow,
      Element.allUnplaced, Element.allBare_recast]
  · rw [map_mark_ruleRefs, ← RuleDef.readMarks_eq (hcommands.carried num),
      ← h.marks hoptions grammar names, ← hrow, Element.allUnplaced,
      Element.filterMap_allRecast refMark?_unplaced, List.map_filterMap]
    exact Element.filterMap_mapListOptions (refMark?_demandingAny names) row ()
  · rw [Element.filterMap_mapListOptions (Element.tested?_demandingAny names),
      ← h.tested_rebuilt hcommands grammar hoptions, ← hrow, Element.allUnplaced,
      Element.filterMap_allRecast Element.tested?_unplaced]

end Rebuilt

/-- Elements without options are level once references demand 0. -/
theorem LacksOptions.isLevel_demandingAny {es : List Element} (h : LacksOptions (Element.listNodes es))
    (names : List String) :
    ∀ node ∈ Element.listNodes (Element.mapListOptions (demandingAny names) () es).2, node.IsLevel := by
  refine isLevel_of_demands ?_ ?_
  · rw [map_mark_ruleRefs, Element.filterMap_mapListOptions (refMark?_demandingAny names),
      ← List.map_filterMap, ← map_mark_ruleRefs]
    intro mark hmark
    obtain ⟨was, hwas, rfl⟩ := List.mem_map.mp hmark
    obtain ⟨ref, href, rfl⟩ := List.mem_map.mp hwas
    unfold RefMark.demandAny
    split
    · exact .inr rfl
    · exact .inl (h.values href precedenceOption)
  · rw [Element.filterMap_mapListOptions (Element.tested?_demandingAny names), h.tested]

/-! ## Blocks of the new rule -/

/-- The elements of alternatives that are told but for their places. -/
theorem Alt.map_allUnplaced_elements {block : List Alt} {rows : List (List Element)}
    (h : Alt.allUnplaced block = rows.map Alt.ofElements) :
    block.map (fun alt => Element.allUnplaced alt.elements) = rows := by
  have hmap := congrArg (List.map Alt.elements) h
  rw [Alt.allUnplaced, Alt.allRecast_eq_map, List.map_map, List.map_map,
    show Alt.elements ∘ Alt.ofElements = id from rfl, List.map_id] at hmap
  rw [← hmap]
  refine List.map_congr_left fun alt _ => ?_
  obtain ⟨elements, options, label, extent, info⟩ := alt
  rfl

/-- Whether an alternative of the new rule stands for an alternative with a number: behind elements that
match nothing comes a row that renders it. -/
def RuleDef.Shows (rule : RuleDef) (names : List String) (lead : List Element → Prop) (alt : Alt)
    (num : Nat) : Prop :=
  ∃ front row, alt.elements = front ++ row ∧ lead front ∧ rule.Renders names num row

/-- Whether elements are at most an action. -/
def IsIdle (front : List Element) : Prop :=
  ∀ e ∈ front, ∃ code, e = .action code

/-- Whether elements are a predicate that does not test less than the precedence 0. -/
def IsGuard (front : List Element) : Prop :=
  ∃ code, front = [.predicate code] ∧ ∀ q, precedenceIn? code.options = some q → 0 ≤ q

/-- Whether elements are a predicate that tests a precedence, as far as it can be read. -/
def IsGuardOf (precedence : Nat) (front : List Element) : Prop :=
  ∃ code, front = [.predicate code] ∧
    precedenceIn? code.options = Text.precedence? (toString precedence)

theorem mem_withAction {row : List Element} {rows : List (List Element)} (hnonempty : rows ≠ []) :
    row ∈ withAction rows → ∃ inner ∈ rows, row = inner ∨ row = emptyAction :: inner := by
  cases rows with
  | nil => contradiction
  | cons first rows =>
      intro h
      rcases List.mem_cons.mp h with rfl | h
      · exact ⟨first, List.mem_cons_self .., .inr rfl⟩
      · exact ⟨row, List.mem_cons_of_mem _ h, .inl rfl⟩

theorem exists_mem_withAction {inner : List Element} {rows : List (List Element)} (h : inner ∈ rows) :
    ∃ row ∈ withAction rows, row = inner ∨ row = emptyAction :: inner := by
  cases rows with
  | nil => cases h
  | cons first rows =>
      rcases List.mem_cons.mp h with rfl | h
      · exact ⟨_, List.mem_cons_self .., .inr rfl⟩
      · exact ⟨inner, List.mem_cons_of_mem _ h, .inl rfl⟩

/-- A precedence that is written out is not negative. -/
theorem Text.nonneg_of_precedence? {n : Nat} {q : Int} (h : precedence? (toString n) = some q) :
    0 ≤ q := by
  rw [precedence?_toString] at h
  obtain ⟨hq, -⟩ := Option.filter_eq_some_iff.mp h
  obtain rfl := Option.some.inj hq
  exact Int.natCast_nonneg n

theorem IsGuardOf.isGuard {precedence : Nat} {front : List Element} (h : IsGuardOf precedence front) :
    IsGuard front := by
  obtain ⟨code, rfl, htests⟩ := h
  exact ⟨code, rfl, fun q hq => Text.nonneg_of_precedence? (htests.symm.trans hq)⟩

section Blocks

variable {grammar : Grammar} {written next : RuleDef} (h : grammar.Unrolls written next)
  (hcommands : LacksCommands written.nodes) (hoptions : LacksOptions written.nodes) (names : List String)

include hcommands hoptions

/-- An alternative that is the elements of a primary alternative but for their places, maybe behind an
action, shows that alternative. -/
theorem shows_primary {num : Nat} (hnum : num ∈ written.primaryNumbers) {alt : Alt}
    (halt : Element.allUnplaced alt.elements = grammar.rebuilt written num ∨
      Element.allUnplaced alt.elements = emptyAction :: grammar.rebuilt written num) :
    written.Shows names IsIdle (alt.mapOptions (demandingAny names) ()).2 num := by
  obtain ⟨elements, options, label, extent, info⟩ := alt
  obtain ⟨origin, shape, hover, -⟩ := RuleDef.exists_of_mem_primaryNumbers hnum
  rcases halt with halt | halt
  · exact ⟨[], _, rfl, nofun, hover.renders hcommands grammar hoptions names halt⟩
  · obtain ⟨first, row, rfl, hfirst, hrow⟩ := Element.allUnplaced_eq_cons halt
    obtain ⟨code, rfl⟩ : ∃ code, first = .action code := by
      cases first <;> first | exact ⟨_, rfl⟩ | cases hfirst
    exact ⟨[_], _, rfl, fun e he => ⟨code, List.mem_singleton.mp he⟩,
      hover.renders hcommands grammar hoptions names hrow⟩

theorem shows_operator {num : Nat} (hnum : num ∈ written.operatorNumbers) {alt : Alt}
    (halt : Element.allUnplaced alt.elements =
      guardElement (precedenceOf written.alts.length num) :: grammar.rebuilt written num) :
    written.Shows names (IsGuardOf (precedenceOf written.alts.length num))
      (alt.mapOptions (demandingAny names) ()).2 num := by
  obtain ⟨elements, options, label, extent, info⟩ := alt
  obtain ⟨origin, shape, hover, -⟩ := RuleDef.exists_of_mem_operatorNumbers hnum
  obtain ⟨first, row, rfl, hfirst, hrow⟩ := Element.allUnplaced_eq_cons halt
  refine ⟨[_], _, rfl, ?_, hover.renders hcommands grammar hoptions names hrow⟩
  have htested := first.tested?_unplaced
  rw [hfirst] at htested
  cases first with
  | predicate code => exact ⟨_, rfl, htested.symm⟩
  | _ => cases hfirst

include h

/-- The primary block of the new rule shows the primary alternatives. -/
theorem Grammar.Unrolls.shows_of_mem_primary {alt : Alt}
    (halt : alt ∈ (Grammar.demandAny names next).primaryBlock) :
    ∃ num ∈ written.primaryNumbers, written.Shows names IsIdle alt num := by
  rw [demandAny_eq, (h.loop.mapOptions (demandingAny names)).2.1, Alt.mapListOptions_eq_map] at halt
  obtain ⟨read, hread, rfl⟩ := List.mem_map.mp halt
  have hrow : Element.allUnplaced read.elements ∈ grammar.primaryRows written := by
    rw [← Alt.map_allUnplaced_elements h.primary]
    exact List.mem_map_of_mem hread
  obtain ⟨inner, hinner, hrow⟩ := mem_withAction (mt List.map_eq_nil_iff.mp h.nonempty) hrow
  obtain ⟨num, hnum, rfl⟩ := List.mem_map.mp hinner
  exact ⟨num, hnum, shows_primary hcommands hoptions names hnum hrow⟩

theorem Grammar.Unrolls.exists_shows_primary {num : Nat} (hnum : num ∈ written.primaryNumbers) :
    ∃ alt ∈ (Grammar.demandAny names next).primaryBlock, written.Shows names IsIdle alt num := by
  obtain ⟨row, hrow, heq⟩ := exists_mem_withAction (List.mem_map_of_mem (f := grammar.rebuilt written) hnum)
  rw [show withAction _ = grammar.primaryRows written from rfl,
    ← Alt.map_allUnplaced_elements h.primary] at hrow
  obtain ⟨alt, halt, rfl⟩ := List.mem_map.mp hrow
  rw [demandAny_eq, (h.loop.mapOptions (demandingAny names)).2.1, Alt.mapListOptions_eq_map]
  exact ⟨_, List.mem_map_of_mem halt, shows_primary hcommands hoptions names hnum heq⟩

/-- The loop of the new rule shows the operators. -/
theorem Grammar.Unrolls.shows_of_mem_operator {alt : Alt}
    (halt : alt ∈ (Grammar.demandAny names next).operatorBlock) :
    ∃ num ∈ written.operatorNumbers,
      written.Shows names (IsGuardOf (precedenceOf written.alts.length num)) alt num := by
  rw [demandAny_eq, (h.loop.mapOptions (demandingAny names)).2.2, Alt.mapListOptions_eq_map] at halt
  obtain ⟨read, hread, rfl⟩ := List.mem_map.mp halt
  have hrow : Element.allUnplaced read.elements ∈ grammar.operatorRows written := by
    rw [← Alt.map_allUnplaced_elements h.operators]
    exact List.mem_map_of_mem hread
  obtain ⟨num, hnum, hrow⟩ := List.mem_map.mp hrow
  exact ⟨num, hnum, shows_operator hcommands hoptions names hnum hrow.symm⟩

theorem Grammar.Unrolls.exists_shows_operator {num : Nat} (hnum : num ∈ written.operatorNumbers) :
    ∃ alt ∈ (Grammar.demandAny names next).operatorBlock,
      written.Shows names (IsGuardOf (precedenceOf written.alts.length num)) alt num := by
  have hrow : guardElement (precedenceOf written.alts.length num) :: grammar.rebuilt written num ∈
      grammar.operatorRows written := List.mem_map_of_mem hnum
  rw [← Alt.map_allUnplaced_elements h.operators] at hrow
  obtain ⟨alt, halt, heq⟩ := List.mem_map.mp hrow
  rw [demandAny_eq, (h.loop.mapOptions (demandingAny names)).2.2, Alt.mapListOptions_eq_map]
  exact ⟨_, List.mem_map_of_mem halt, shows_operator hcommands hoptions names hnum heq⟩

end Blocks

end GrammarCompiler
