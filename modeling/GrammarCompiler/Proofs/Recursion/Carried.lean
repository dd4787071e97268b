import GrammarCompiler.Proofs.Ast.Views
import GrammarCompiler.Proofs.Recursion.Classified

/-!
# What goes over into the new rule

The elements of an alternative, all but the operand at its front, stand in the new rule as copies
(`RuleDef.carried`). So what is read off elements one by one and off their copies alike is read off the
blocks of the new rule alternative by alternative (`Grammar.Rewrites.views_primary`,
`Grammar.Rewrites.views_operators`), and off nothing else in it (`RuleDef.IsLoop.views_nodes`).
-/

namespace GrammarCompiler

variable {α : Type}

/-- Whether `view` reads off the copies of elements what `view'` reads off the elements, and reads
nothing off what the text of a new rule adds to them. -/
structure Traced (view view' : Element → Option α) : Prop where
  unplaced : ∀ e, view e.unplaced = view e
  copied : ∀ e, view e.copied = view' e
  demanding : ∀ count name precedence (e : Element) seen,
    view' (e.mapOptions (demanding count name precedence) seen).2 = view' e
  block : ∀ alts options extent, view (.block alts options extent) = none
  loop : ∀ greedy element extent, view (.suffixed .closure greedy element extent) = none
  action : ∀ code, view (.action code) = none
  predicate : ∀ code, view (.predicate code) = none

/-- What is read off the elements in an alternative. -/
def Alt.views (view : Element → Option α) (alt : Alt) : List α :=
  alt.nodes.filterMap view

/-- What is read off elements without looking at their places. -/
theorem Alt.views_unplaced {view : Element → Option α} (h : ∀ e : Element, view e.unplaced = view e)
    (alts : List Alt) : (Alt.allUnplaced alts).map (·.views view) = alts.map (·.views view) := by
  unfold Alt.allUnplaced
  rw [Alt.allRecast_eq_map, List.map_map]
  refine List.map_congr_left fun alt _ => ?_
  obtain ⟨elements, options, label, extent, info⟩ := alt
  exact Element.filterMap_allRecast h elements

/-! ## One alternative -/

section Views

variable {view view' : Element → Option α} (hview : Traced view view')

include hview

theorem Traced.remainder {alt : Alt} {name : String} {num : Nat} {shape : AltShape}
    (h : alt.shape name num = .ok shape) (demand : Option Nat) :
    (alt.remainder name shape demand).views view' =
      (Element.listNodes (alt.carried shape)).filterMap view' := by
  rw [← Alt.elements_kept h, ← Alt.nodes_eq]
  cases demand with
  | none => rfl
  | some precedence =>
      exact Alt.filterMap_mapOptions (hview.demanding _ name precedence) (alt.kept name shape) 0

/-- What is read off what stands for an alternative. -/
theorem Traced.rebuilt (grammar : Grammar) {rule : RuleDef} (hcommands : LacksCommands rule.nodes)
    (num : Nat) : (Element.listNodes (grammar.rebuilt rule num)).filterMap view =
      (Element.listNodes (rule.carried num)).filterMap view' := by
  rcases grammar.rebuilt_cases (hcommands.carried num) with
    ⟨hnone, hnone'⟩ | ⟨alt, shape, demand, hshape, hcarried, heq⟩
  · rw [hnone, hnone']
    rfl
  · rw [heq, hcarried, ← hview.remainder hshape demand, Alt.views, Alt.nodes_eq]
    exact Element.filterMap_allRecast hview.copied _

/-! ## Blocks -/

theorem Traced.views_unplaced (alts : List Alt) :
    (Alt.allUnplaced alts).map (·.views view) = alts.map (·.views view) :=
  Alt.views_unplaced hview.unplaced alts

theorem Traced.primary {block : List Alt} {pieces : List Piece}
    (h : Alt.allUnplaced block =
      (Piece.withAction pieces).map fun piece => Alt.ofElements piece.elements) :
    block.map (·.views view) = if pieces = [] then [[]] else
      pieces.map fun piece => (Element.listNodes piece.elements).filterMap view := by
  have haction : ∀ es, (Alt.ofElements (emptyAction :: es)).views view =
      (Element.listNodes es).filterMap view :=
    fun es => List.filterMap_cons_none (hview.action _)
  rw [← hview.views_unplaced, h, List.map_map]
  cases pieces with
  | nil => exact congrArg (fun views => [views]) (haction [])
  | cons piece pieces => exact congrArg (· :: _) (haction piece.elements)

theorem Traced.operators {block : List Alt} {pieces : List (Nat × Piece)}
    (h : Alt.allUnplaced block = pieces.map fun (precedence, piece) =>
      Alt.ofElements (piece.withGuard precedence).elements) :
    block.map (·.views view) =
      pieces.map fun (_, piece) => (Element.listNodes piece.elements).filterMap view := by
  rw [← hview.views_unplaced, h, List.map_map]
  refine List.map_congr_left fun piece _ => ?_
  exact List.filterMap_cons_none (hview.predicate _)

omit hview in
theorem LeftRecursion.views_pointAlts (places : List Nat) (alts : List Alt) :
    (pointAlts places alts).map (·.views view) = alts.map (·.views view) := by
  unfold pointAlts
  rw [List.mapIdx_eq_zipIdx_map, List.map_map]
  conv_rhs => rw [← List.zipIdx_map_fst 0 alts, List.map_map]
  refine List.map_congr_left fun alt _ => ?_
  obtain ⟨⟨elements, options, label, extent, info⟩, i⟩ := alt
  dsimp only [Function.comp]
  split <;> rfl

/-! ## Rules -/

omit hview in
/-- A rule with a block and a loop holds what its blocks hold. -/
theorem RuleDef.IsLoop.views_nodes {rule : RuleDef} (h : rule.IsLoop)
    (hblock : ∀ alts options extent, view (.block alts options extent) = none)
    (hloop : ∀ greedy element extent, view (.suffixed .closure greedy element extent) = none) :
    rule.nodes.filterMap view = (rule.primaryBlock ++ rule.operatorBlock).flatMap (·.views view) := by
  have hall : ∀ alts : List Alt, (Alt.listNodes alts).filterMap view = alts.flatMap (·.views view) :=
    fun alts => by
      rw [Alt.listNodes_eq_flatMap, List.filterMap_flatMap]
      rfl
  obtain ⟨alts, options, extent, loop, options', label, outer, info, halts, hrest⟩ := h
  unfold RuleDef.nodes RuleDef.primaryBlock RuleDef.operatorBlock
  rw [halts, List.flatMap_append, ← hall, ← hall]
  rcases hrest with rfl | ⟨greedy, ops, options'', inner, outer', rfl⟩
  · simp [Alt.listNodes, Alt.nodes, Element.listNodes, Element.nodes, hblock]
  · simp [Alt.listNodes, Alt.nodes, Element.listNodes, Element.nodes, hblock, hloop]

omit hview in
theorem LeftRecursion.isLoop_link (lr : LeftRecursion) {rule : RuleDef} (h : rule.IsLoop) :
    (lr.link rule).2.IsLoop := by
  obtain ⟨name, nameToken, isFragment, args, returns, ⟨alts, blockExtent⟩, extent⟩ := rule
  obtain ⟨block, options, inner, loop, options', label, outer, info, halts, hloop⟩ := h
  obtain rfl : alts = _ := halts
  rcases hloop with rfl | ⟨greedy, ops, options'', inner', outer', rfl⟩
  · exact ⟨_, _, _, _, _, _, _, _, rfl, .inl rfl⟩
  · exact ⟨_, _, _, _, _, _, _, _, rfl, .inr ⟨_, _, _, _, _, rfl⟩⟩

end Views

/-! ## What goes over from the alternatives of a rule -/

/-- Whether an alternative has a number in a rule, and what goes over from it. -/
structure RuleDef.HandsOver (rule : RuleDef) (num : Nat) (origin : Alt) (shape : AltShape) : Prop where
  mem : origin ∈ rule.alts
  get : rule.alts[num - 1]? = some origin
  shaped : origin.shape rule.name num = .ok shape
  carried : rule.carried num = origin.carried shape

theorem RuleDef.exists_handsOver {rule : RuleDef} {p : AltShape → Bool} {num : Nat}
    (h : num ∈ rule.numbersOf p) : ∃ origin shape, rule.HandsOver num origin shape ∧ p shape = true := by
  obtain ⟨⟨alt, num⟩, hmem, rfl⟩ := List.mem_map.mp h
  obtain ⟨hnumbered, hselects⟩ := List.mem_filter.mp hmem
  have hget : rule.alts[num - 1]? = some alt :=
    (List.mk_mem_zipIdx_iff_le_and_getElem?_sub.mp hnumbered).2
  obtain ⟨shape, hshape, hp⟩ := (Option.any_eq_true _ _).mp hselects
  have hshaped : alt.shape rule.name num = .ok shape := by
    cases hall : alt.shape rule.name num with
    | error reason => rw [hall] at hshape; cases hshape
    | ok found => rw [hall] at hshape; exact congrArg Except.ok (Option.some.inj hshape)
  exact ⟨alt, shape, ⟨List.mem_of_getElem? hget, hget, hshaped, RuleDef.carried_eq hget hshaped⟩, hp⟩

theorem Grammar.Tells.handsOver {grammar : Grammar} {rule : RuleDef} {alt : Alt × Nat}
    {found : AltAnalysis} (h : grammar.Tells rule alt found) (halt : alt ∈ rule.numbered) :
    rule.HandsOver found.info.alt alt.1 found.shape := by
  obtain ⟨alt, num⟩ := alt
  have hget : rule.alts[num - 1]? = some alt :=
    (List.mk_mem_zipIdx_iff_le_and_getElem?_sub.mp halt).2
  obtain rfl : found.info.alt = num := h.num
  exact ⟨List.mem_of_getElem? hget, hget, h.shape, RuleDef.carried_eq hget h.shape⟩

/-- All elements of a primary alternative go over. -/
theorem RuleDef.HandsOver.all {rule : RuleDef} {num : Nat} {origin : Alt} {shape : AltShape}
    (h : rule.HandsOver num origin shape) (hshape : shape.isOperator = false) :
    rule.carried num = origin.elements := by
  rw [h.carried, Alt.carried, hshape, if_neg Bool.false_ne_true]

/-- All elements of an operator but its first operand go over. -/
theorem RuleDef.HandsOver.tail {rule : RuleDef} {num : Nat} {origin : Alt} {shape : AltShape}
    (h : rule.HandsOver num origin shape) (hshape : shape.isOperator = true) :
    ∃ first, origin.elements = first :: rule.carried num ∧ first.refersTo rule.name = true := by
  obtain ⟨first, second, rest, helements, hfirst⟩ := (Alt.exists_of_shape h.shaped).2 hshape
  refine ⟨first, ?_, hfirst⟩
  rw [h.carried, Alt.carried, hshape, if_pos rfl, helements, List.tail_cons]

theorem RuleAnalysis.exists_primary {analysis : RuleAnalysis} {info : AltInfo}
    (h : info ∈ analysis.primary) :
    ∃ found ∈ analysis.alts, found.info = info ∧ found.shape.isOperator = false := by
  obtain ⟨found, hfound, rfl⟩ := List.mem_map.mp h
  obtain ⟨hmem, hshape⟩ := List.mem_filter.mp hfound
  refine ⟨found, hmem, rfl, ?_⟩
  cases hfoundShape : found.shape <;> simp_all [AltShape.isOperator]

theorem RuleAnalysis.exists_operator {analysis : RuleAnalysis} {info : AltInfo}
    (h : info ∈ analysis.operators) :
    ∃ found ∈ analysis.alts, found.info = info ∧ found.shape.isOperator = true := by
  have hshape : ∀ shape, shape.isOperator = true → info ∈ analysis.ofShape shape →
      ∃ found ∈ analysis.alts, found.info = info ∧ found.shape.isOperator = true := by
    intro shape hoperator hinfo
    obtain ⟨found, hfound, rfl⟩ := List.mem_map.mp hinfo
    obtain ⟨hmem, hsame⟩ := List.mem_filter.mp hfound
    exact ⟨found, hmem, rfl, by rw [of_decide_eq_true hsame, hoperator]⟩
  rcases List.mem_append.mp h with h | h
  · rcases List.mem_append.mp h with h | h
    · exact hshape .binary rfl h
    · exact hshape .ternary rfl h
  · exact hshape .suffix rfl h

namespace Grammar.Rewrites

variable {grammar : Grammar} {name : String} {rule : Rule} {written parsed : RuleDef}
  {analysis : RuleAnalysis} (h : grammar.Rewrites name rule written analysis parsed)
  (hstands : written.Stands grammar.tokens)

include h

/-- What goes over from a primary alternative. -/
theorem handsOver_primary {info : AltInfo} (hinfo : info ∈ analysis.primary) :
    ∃ origin shape, written.HandsOver info.alt origin shape ∧ shape.isOperator = false := by
  obtain ⟨found, hfound, rfl, hshape⟩ := RuleAnalysis.exists_primary hinfo
  obtain ⟨alt, halt, htells⟩ := exists_tells h.tells found hfound
  exact ⟨alt.1, found.shape, htells.handsOver halt, hshape⟩

/-- What goes over from an operator. -/
theorem handsOver_operator {info : AltInfo} (hinfo : info ∈ analysis.operators) :
    ∃ origin shape, written.HandsOver info.alt origin shape ∧ shape.isOperator = true := by
  obtain ⟨found, hfound, rfl, hshape⟩ := RuleAnalysis.exists_operator hinfo
  obtain ⟨alt, halt, htells⟩ := exists_tells h.tells found hfound
  exact ⟨alt.1, found.shape, htells.handsOver halt, hshape⟩

include hstands

/-- What is read from the new text of a rule is a block and a loop, and so is what it is linked to. -/
theorem linked : parsed.IsLoop ∧
    analysis.linked rule written parsed =
      (LeftRecursion.ofLinked analysis.primary analysis.operators analysis.refLabels written.alts,
        (analysis.linked rule written parsed).2) ∧
    (analysis.linked rule written parsed).2.IsLoop ∧
    (analysis.linked rule written parsed).2.primaryBlock =
      LeftRecursion.pointAlts (List.range analysis.primary.length) parsed.primaryBlock ∧
    (analysis.linked rule written parsed).2.operatorBlock =
      LeftRecursion.pointAlts (List.range' analysis.primary.length analysis.operators.length)
        parsed.operatorBlock := by
  obtain ⟨hloop, hprimary, hoperators⟩ :=
    RuleDef.isLoop_of_unplaced (unplaced_of_parse hstands h.tells h.parse)
  obtain ⟨hlr, -, hprimary', hoperators'⟩ := LeftRecursion.link_ofInfos analysis.primary
    analysis.operators analysis.refLabels written.alts
    (show RuleDef.IsLoop { parsed with nameToken := rule.nameToken } from hloop)
    (LeftRecursion.length_primary_le hprimary) (LeftRecursion.length_operators_le hoperators)
  exact ⟨hloop, Prod.ext hlr rfl, LeftRecursion.isLoop_link _ hloop, hprimary', hoperators'⟩

/-- No alternative that is read from the new text points anywhere. -/
theorem info_eq_none : ∀ alt ∈ parsed.primaryBlock ++ parsed.operatorBlock, alt.info = none := by
  obtain ⟨trees, d, hd, -, hread, -⟩ := RuleDef.parse_eq_ok.mp h.parse
  obtain ⟨used, -, hspelled⟩ := Cursor.takes_rule hread
  exact (h.linked hstands).1.info_eq_none hspelled

variable (hcommands : LacksCommands written.nodes) {view view' : Element → Option α}
  (hview : Traced view view')

include hcommands hview

/-- The primary block holds what goes over from the primary alternatives. -/
theorem views_primary :
    (analysis.linked rule written parsed).2.primaryBlock.map (·.views view) =
      if analysis.primary = [] then [[]] else analysis.primary.map fun info =>
        (Element.listNodes (written.carried info.alt)).filterMap view' := by
  obtain ⟨-, hprimary, -⟩ :=
    RuleDef.isLoop_of_unplaced (unplaced_of_parse hstands h.tells h.parse)
  rw [(h.linked hstands).2.2.2.1, LeftRecursion.views_pointAlts, hview.primary hprimary,
    List.map_map]
  simp only [List.map_eq_nil_iff, Function.comp_def, piece, hview.rebuilt grammar hcommands]

/-- The loop holds what goes over from the operators. -/
theorem views_operators :
    (analysis.linked rule written parsed).2.operatorBlock.map (·.views view) =
      analysis.operators.map fun info =>
        (Element.listNodes (written.carried info.alt)).filterMap view' := by
  obtain ⟨-, -, hoperators⟩ :=
    RuleDef.isLoop_of_unplaced (unplaced_of_parse hstands h.tells h.parse)
  rw [(h.linked hstands).2.2.2.2, LeftRecursion.views_pointAlts, hview.operators hoperators,
    List.map_map]
  simp only [Function.comp_def, piece, hview.rebuilt grammar hcommands]

end Grammar.Rewrites

end GrammarCompiler
