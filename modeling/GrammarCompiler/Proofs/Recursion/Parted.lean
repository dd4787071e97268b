import GrammarCompiler.Proofs.Ast.Bare
import GrammarCompiler.Proofs.Ast.Views
import GrammarCompiler.Proofs.Recursion.Sourced

/-!
# How the alternatives of a rule are parted

Analysis gives each alternative of a left-recursive rule a shape (`Grammar.Tells`). The primary
alternatives keep the order they are written in, and the operators are listed shape by shape
(`Grammar.nums_primary`, `Grammar.nums_operators`), so that each alternative is listed once
(`Grammar.perm_nums`).

What stands in the new rule for an alternative (`Grammar.rebuilt`) is a copy of its elements, all but the
operand at its front (`RuleDef.carried`, `Grammar.allPlain_rebuilt`), if there are no lexer commands among
them.
-/

namespace GrammarCompiler

/-! ## Numbers of alternatives -/

namespace RuleDef

def numbered (rule : RuleDef) : List (Alt × Nat) :=
  rule.alts.zipIdx 1

/-- Whether an alternative has a shape that is selected. -/
def selects (rule : RuleDef) (p : AltShape → Bool) (alt : Alt × Nat) : Bool :=
  (alt.1.shape rule.name alt.2).toOption.any p

/-- The numbers of the alternatives whose shapes are selected. -/
def numbersOf (rule : RuleDef) (p : AltShape → Bool) : List Nat :=
  (rule.numbered.filter (rule.selects p)).map (·.2)

theorem map_numbered (rule : RuleDef) :
    rule.numbered.map (·.2) = List.range' 1 rule.alts.length :=
  List.zipIdx_map_snd 1 rule.alts

/-- They increase. -/
theorem numbersOf_increase (rule : RuleDef) (p : AltShape → Bool) :
    (rule.numbersOf p).Pairwise (· < ·) :=
  .sublist ((List.filter_sublist).map _) (rule.map_numbered ▸ List.pairwise_lt_range')

/-- What is told apart by shapes is found once. -/
theorem perm_shapes {α : Type} (shapeOf : α → AltShape) (xs : List α) :
    (xs.filter (fun x => !(shapeOf x).isOperator) ++ (xs.filter (fun x => shapeOf x == .binary) ++
      xs.filter (fun x => shapeOf x == .ternary) ++
      xs.filter (fun x => shapeOf x == .suffix))).Perm xs := by
  induction xs with
  | nil => exact .refl _
  | cons x xs ih =>
      have hmiddle : ∀ front back : List α, (front ++ back).Perm xs →
          (front ++ x :: back).Perm (x :: xs) := fun _ _ h => List.perm_middle.trans (h.cons x)
      simp only [List.filter_cons]
      generalize xs.filter (fun x => !(shapeOf x).isOperator) = primary at ih ⊢
      generalize xs.filter (fun x => shapeOf x == .binary) = binary at ih ⊢
      generalize xs.filter (fun x => shapeOf x == .ternary) = ternary at ih ⊢
      generalize xs.filter (fun x => shapeOf x == .suffix) = suffix at ih ⊢
      cases shapeOf x with
      | binary => exact hmiddle _ _ ih
      | ternary =>
          simpa [AltShape.isOperator] using
            hmiddle (primary ++ binary) (ternary ++ suffix) (by simpa using ih)
      | suffix =>
          simpa [AltShape.isOperator] using
            hmiddle (primary ++ binary ++ ternary) suffix (by simpa using ih)
      | front | other => exact ih.cons x

end RuleDef

/-- Each alternative is listed once among the primary ones and the operators. -/
theorem RuleAnalysis.perm_infos (analysis : RuleAnalysis) :
    (analysis.primary ++ analysis.operators).Perm (analysis.alts.map (·.info)) := by
  have hall := (RuleDef.perm_shapes (·.shape) analysis.alts).map (·.info)
  have hshape : ∀ shape : AltShape, (analysis.alts.filter fun a => a.shape == shape) =
      analysis.alts.filter (·.shape = shape) := fun shape =>
    List.filter_congr fun a _ => by cases a.shape <;> cases shape <;> rfl
  have hprimary : (analysis.alts.filter fun a => !a.shape.isOperator) =
      analysis.alts.filter fun a => a.shape = .front || a.shape = .other :=
    List.filter_congr fun a _ => by cases a.shape <;> rfl
  rw [hprimary, hshape, hshape, hshape] at hall
  rw [List.map_append, List.map_append, List.map_append] at hall
  exact hall

/-! ## What analysis finds -/

namespace Grammar

/-- What is found out about an alternative with its number. -/
structure Tells (grammar : Grammar) (rule : RuleDef) (alt : Alt × Nat) (found : AltAnalysis) :
    Prop where
  shape : alt.1.shape rule.name alt.2 = .ok found.shape
  num : found.info.alt = alt.2
  label : found.info.label = alt.1.label.map (·.name)
  refLabel : found.refLabel = if found.shape.isOperator then
    (alt.1.withoutLeadingRef rule.name (alt.1.label.map (·.name))).2 else none
  text : found.info.text = Text.trim ((alt.1.remainder rule.name found.shape (found.shape.demand
    (grammar.assocOf alt.1).1 (precedenceOf rule.alts.length alt.2))).text grammar.tokens)

theorem tells_ofAlt {grammar : Grammar} {rule : RuleDef} {alt : Alt} {num : Nat} {shape : AltShape}
    (h : alt.shape rule.name num = .ok shape) : grammar.Tells rule (alt, num)
      (.ofAlt grammar.tokens rule.name rule.alts.length num alt shape
        (if shape = .other then (.left, []) else grammar.assocOf alt).1) := by
  constructor
  · rw [h]
    cases shape <;> rfl
  · cases shape <;> rfl
  · cases shape <;> rfl
  · cases shape <;> rfl
  · rw [AltAnalysis.text_ofAlt]
    -- the associativity of an alternative that refers to nothing is not asked for
    cases shape <;> rfl

theorem analyzeAlts_eq_ok {grammar : Grammar} {rule : RuleDef} : ∀ {alts : List (Alt × Nat)}
    {found : List AltAnalysis}, (grammar.analyzeAlts rule alts).2 = .ok found →
      List.Forall₂ (grammar.Tells rule) alts found
  | [], found, h => by
      obtain rfl := Except.ok.inj h
      exact .nil
  | (alt, num) :: alts, found, h => by
      rw [analyzeAlts] at h
      split at h
      · cases h
      next shape hshape =>
      dsimp only at h
      cases hrest : (grammar.analyzeAlts rule alts).2 with
      | error reason =>
          rw [hrest] at h
          cases h
      | ok others =>
          rw [hrest] at h
          obtain rfl := Except.ok.inj h
          exact .cons (tells_ofAlt hshape) (analyzeAlts_eq_ok hrest)

theorem analyze_eq_ok {grammar : Grammar} {rule : RuleDef} {issues : List Issue}
    {analysis : RuleAnalysis} (h : grammar.analyze rule = (issues, .ok analysis)) :
    List.Forall₂ (grammar.Tells rule) rule.numbered analysis.alts := by
  have hfound := (Prod.mk.inj h).2
  cases halts : (grammar.analyzeAlts rule (rule.alts.zipIdx 1)).2 with
  | error reason =>
      rw [halts] at hfound
      cases hfound
  | ok found =>
      rw [halts] at hfound
      obtain rfl := Except.ok.inj hfound
      exact analyzeAlts_eq_ok halts

/-! ## Groups -/

section Groups

variable {grammar : Grammar} {rule : RuleDef}

theorem nums_filter {alts : List (Alt × Nat)} {found : List AltAnalysis}
    (h : List.Forall₂ (grammar.Tells rule) alts found) (p : AltShape → Bool) :
    (found.filter (fun a => p a.shape)).map (·.info.alt) =
      (alts.filter (rule.selects p)).map (·.2) := by
  induction h with
  | nil => rfl
  | @cons alt a alts found hfirst _ ih =>
      have hselects : rule.selects p alt = p a.shape := by
        unfold RuleDef.selects
        rw [hfirst.shape]
        rfl
      rw [List.filter_cons, List.filter_cons, hselects]
      split
      · rw [List.map_cons, List.map_cons, hfirst.num, ih]
      · exact ih

theorem nums_found {alts : List (Alt × Nat)} {found : List AltAnalysis}
    (h : List.Forall₂ (grammar.Tells rule) alts found) :
    found.map (·.info.alt) = alts.map (·.2) := by
  induction h with
  | nil => rfl
  | cons hfirst _ ih => rw [List.map_cons, List.map_cons, hfirst.num, ih]

theorem exists_tells {alts : List (Alt × Nat)} {found : List AltAnalysis}
    (h : List.Forall₂ (grammar.Tells rule) alts found) :
    ∀ a ∈ found, ∃ alt ∈ alts, grammar.Tells rule alt a := by
  induction h with
  | nil => exact fun a ha => absurd ha List.not_mem_nil
  | cons hfirst _ ih =>
      refine List.forall_mem_cons.mpr ⟨⟨_, List.mem_cons_self .., hfirst⟩, fun a ha => ?_⟩
      obtain ⟨alt, halt, htells⟩ := ih a ha
      exact ⟨alt, List.mem_cons_of_mem _ halt, htells⟩

variable {analysis : RuleAnalysis}
  (h : List.Forall₂ (grammar.Tells rule) rule.numbered analysis.alts)

include h

theorem nums_primary : analysis.primary.map (·.alt) = rule.numbersOf (!·.isOperator) := by
  unfold RuleDef.numbersOf
  rw [← nums_filter h, RuleAnalysis.primary, List.map_map]
  refine congrArg (List.map _) (List.filter_congr fun a _ => ?_)
  cases a.shape <;> rfl

theorem nums_ofShape (shape : AltShape) :
    (analysis.ofShape shape).map (·.alt) = rule.numbersOf (· == shape) := by
  unfold RuleDef.numbersOf
  rw [← nums_filter h, RuleAnalysis.ofShape, List.map_map]
  refine congrArg (List.map _) (List.filter_congr fun a _ => ?_)
  cases a.shape <;> cases shape <;> rfl

theorem nums_operators : analysis.operators.map (·.alt) = rule.numbersOf (· == .binary) ++
    rule.numbersOf (· == .ternary) ++ rule.numbersOf (· == .suffix) := by
  rw [RuleAnalysis.operators, List.map_append, List.map_append, nums_ofShape h, nums_ofShape h,
    nums_ofShape h]

omit h in
theorem exists_found {info : AltInfo} (hinfo : info ∈ analysis.primary ++ analysis.operators) :
    ∃ a ∈ analysis.alts, a.info = info :=
  List.mem_map.mp (analysis.perm_infos.subset hinfo)

/-- Each alternative is listed once. -/
theorem perm_nums : (rule.numbersOf (!·.isOperator) ++ (rule.numbersOf (· == .binary) ++
    rule.numbersOf (· == .ternary) ++ rule.numbersOf (· == .suffix))).Perm
      (List.range' 1 rule.alts.length) := by
  have hall := analysis.perm_infos.map (·.alt)
  rw [List.map_append, nums_primary h, nums_operators h, List.map_map] at hall
  exact hall.trans (.of_eq ((nums_found h).trans rule.map_numbered))

end Groups

end Grammar

/-! ## What goes over from an alternative -/

namespace Alt

/-- The elements of an alternative that go over into the new rule. -/
def carried (alt : Alt) (shape : AltShape) : List Element :=
  if shape.isOperator then alt.elements.tail else alt.elements

theorem elements_withoutLabelTokens (alt : Alt) : alt.withoutLabelTokens.elements = alt.elements := by
  unfold withoutLabelTokens
  split
  · split <;> rfl
  · rfl

theorem elements_kept {alt : Alt} {name : String} {num : Nat} {shape : AltShape}
    (h : alt.shape name num = .ok shape) : (alt.kept name shape).elements = alt.carried shape := by
  unfold kept carried
  rw [elements_withoutLabelTokens]
  split
  · next hoperator =>
      obtain ⟨first, second, rest, helements, hfirst⟩ := (exists_of_shape h).2 hoperator
      unfold withoutLeadingRef
      rw [helements]
      dsimp only
      rw [if_pos hfirst, List.tail_cons]
  · rfl

end Alt

/-- The elements that go over into the new rule from the alternative with a number: all of them, but for
the operand at the front of an operator. -/
def RuleDef.carried (rule : RuleDef) (num : Nat) : List Element :=
  match rule.alts[num - 1]? with
  | none => []
  | some alt => (alt.shape rule.name num).toOption.elim [] alt.carried

theorem RuleDef.carried_eq {rule : RuleDef} {num : Nat} {alt : Alt} {shape : AltShape}
    (hget : rule.alts[num - 1]? = some alt) (hshape : alt.shape rule.name num = .ok shape) :
    rule.carried num = alt.carried shape := by
  unfold RuleDef.carried
  rw [hget]
  dsimp only
  rw [hshape]
  rfl

/-- A rule without lexer commands hands over none. -/
theorem LacksCommands.carried {rule : RuleDef} (h : LacksCommands rule.nodes) (num : Nat) :
    LacksCommands (rule.carried num) := by
  intro e he
  unfold RuleDef.carried at he
  cases hget : rule.alts[num - 1]? with
  | none =>
      rw [hget] at he
      cases he
  | some alt =>
      rw [hget] at he
      dsimp only at he
      have hmem : e ∈ alt.elements := by
        cases hshape : alt.shape rule.name num with
        | error reason =>
            rw [hshape] at he
            cases he
        | ok shape =>
            rw [hshape] at he
            change e ∈ alt.carried shape at he
            unfold Alt.carried at he
            split at he
            · exact List.mem_of_mem_tail he
            · exact he
      exact h e (Alt.nodes_subset_of_mem (List.mem_of_getElem? hget) (mem_listNodes hmem))

/-! ## What stands for an alternative -/

theorem Options.filter_setEntry {p : String × String → Bool} {key : String}
    (h : ∀ value, p (key, value) = false)
    (value : String) (entries : List (String × String)) :
    (setEntry key value entries).filter p = entries.filter p := by
  induction entries with
  | nil => simp [setEntry, h]
  | cons entry entries ih =>
      obtain ⟨k, v⟩ := entry
      by_cases hk : k = key
      · subst hk
        simp [setEntry, h]
      · rw [setEntry, if_neg hk, List.filter_cons, List.filter_cons, ih]

/-- What the last operand demands is not told. -/
theorem unseen_demanding (count : Nat) (name : String) (precedence : Nat) :
    Unseen (demanding count name precedence) Element.plainEntries := by
  intro e s
  cases e with
  | ruleRef ref =>
      show List.filter _ (if _ then ref.options.set _ _ else ref.options).entries = _
      split
      · exact Options.filter_setEntry (fun _ => by simp) _ _
      · rfl
  | _ => rfl

/-- Without lexer commands, what remains of an alternative is read back as a copy. -/
theorem Alt.asRead_remainder {alt : Alt} {name : String} {num : Nat} {shape : AltShape}
    (h : alt.shape name num = .ok shape) (hcommands : LacksCommands (alt.carried shape)) (cut : Bool)
    (demand : Option Nat) : Element.asRead cut (alt.remainder name shape demand).elements =
      Element.allCopied (alt.remainder name shape demand).elements := by
  rw [← Alt.elements_kept h] at hcommands
  have hremainder : LacksCommands (alt.remainder name shape demand).elements := by
    cases demand with
    | none => exact hcommands
    | some precedence =>
        have hmapped := Element.isCommand_of_mem_mapListOptions
          (f := demanding ((alt.kept name shape).nodesOfKind .ruleRef).length name precedence) 0 hcommands
        unfold Alt.remainder
        generalize alt.kept name shape = kept at hmapped ⊢
        obtain ⟨elements, options, label, extent, info⟩ := kept
        exact hmapped
  unfold Element.asRead
  split
  · generalize (alt.remainder name shape demand).elements = es at hremainder ⊢
    cases es with
    | nil => rfl
    | cons e es =>
        refine Element.signless_cons ?_ _
        rw [Element.isCommand_recast]
        exact hremainder e (List.mem_cons_self ..)
  · rfl

namespace Grammar

/-- The elements that stand in the new rule for the alternative with a number. -/
def rebuilt (grammar : Grammar) (rule : RuleDef) (num : Nat) : List Element :=
  match rule.alts[num - 1]? with
  | none => []
  | some alt =>
    match alt.shape rule.name num with
    | .error _ => []
    | .ok shape => Element.asRead (alt.isCut shape) (alt.remainder rule.name shape (shape.demand
        (grammar.assocOf alt).1 (precedenceOf rule.alts.length num))).elements

/-- Without lexer commands, what stands for an alternative is a copy of what remains of it. -/
theorem rebuilt_cases (grammar : Grammar) {rule : RuleDef} {num : Nat}
    (hcommands : LacksCommands (rule.carried num)) :
    (grammar.rebuilt rule num = [] ∧ rule.carried num = []) ∨
      ∃ (alt : Alt) (shape : AltShape) (demand : Option Nat),
      alt.shape rule.name num = .ok shape ∧ rule.carried num = alt.carried shape ∧
        grammar.rebuilt rule num = Element.allCopied (alt.remainder rule.name shape demand).elements := by
  cases hget : rule.alts[num - 1]? with
  | none =>
      unfold rebuilt RuleDef.carried
      rw [hget]
      exact .inl ⟨rfl, rfl⟩
  | some alt =>
      cases hshape : alt.shape rule.name num with
      | error reason =>
          unfold rebuilt RuleDef.carried
          rw [hget]
          dsimp only
          rw [hshape]
          exact .inl ⟨rfl, rfl⟩
      | ok shape =>
          rw [RuleDef.carried_eq hget hshape] at hcommands ⊢
          refine .inr ⟨alt, shape, shape.demand (grammar.assocOf alt).1
            (precedenceOf rule.alts.length num), hshape, rfl, ?_⟩
          unfold rebuilt
          rw [hget]
          dsimp only
          rw [hshape]
          exact Alt.asRead_remainder hshape hcommands _ _

/-- What stands for an alternative is what goes over from it, but for places and for the options that tell
where an element came from or what it demands. -/
theorem allPlain_rebuilt (grammar : Grammar) {rule : RuleDef} {num : Nat}
    (hcommands : LacksCommands (rule.carried num)) :
    Element.allPlain (grammar.rebuilt rule num) = Element.allPlain (rule.carried num) := by
  rcases grammar.rebuilt_cases hcommands with ⟨hnone, hnone'⟩ | ⟨alt, shape, demand, hshape, hcarried, heq⟩
  · rw [hnone, hnone']
  rw [heq, hcarried, Element.allPlain_copied, ← Alt.elements_kept hshape]
  cases demand with
  | none => rfl
  | some precedence =>
      show Element.allPlain ((alt.kept rule.name shape).mapOptions _ 0).2.elements = _
      generalize alt.kept rule.name shape = kept
      obtain ⟨elements, options, label, extent, info⟩ := kept
      exact Element.allRecast_mapOptions _ (unseen_demanding _ _ _) elements 0

theorem allBare_rebuilt (grammar : Grammar) {rule : RuleDef} {num : Nat}
    (hcommands : LacksCommands (rule.carried num)) :
    Element.allBare (grammar.rebuilt rule num) = Element.allBare (rule.carried num) := by
  rw [← Element.allBare_allPlain, grammar.allPlain_rebuilt hcommands, Element.allBare_allPlain]

/-- What stands in the text of the new rule for an alternative. -/
def piece (grammar : Grammar) (rule : RuleDef) (info : AltInfo) : Piece :=
  ⟨info.text, grammar.rebuilt rule info.alt⟩

theorem isCopy_piece {grammar : Grammar} {rule : RuleDef} (h : rule.Stands grammar.tokens)
    {analysis : RuleAnalysis}
    (hanalysis : List.Forall₂ (grammar.Tells rule) rule.numbered analysis.alts) {info : AltInfo}
    (hinfo : info ∈ analysis.primary ++ analysis.operators) :
    (grammar.piece rule info).IsCopy := by
  obtain ⟨found, hfound, rfl⟩ := exists_found hinfo
  obtain ⟨⟨alt, num⟩, halt, htells⟩ := exists_tells hanalysis found hfound
  obtain ⟨i, ts, hstands⟩ := h.alts alt (List.fst_mem_of_mem_zipIdx halt)
  have hget : rule.alts[num - 1]? = some alt :=
    (List.mk_mem_zipIdx_iff_le_and_getElem?_sub.mp halt).2
  have hrebuilt : grammar.rebuilt rule found.info.alt = Element.asRead (alt.isCut found.shape)
      (alt.remainder rule.name found.shape (found.shape.demand (grammar.assocOf alt).1
        (precedenceOf rule.alts.length num))).elements := by
    unfold rebuilt
    rw [htells.num, hget]
    dsimp only
    rw [htells.shape]
  obtain ⟨us, hinked, hcopied⟩ := hstands.exists_inked htells.shape
    (found.shape.demand (grammar.assocOf alt).1 (precedenceOf rule.alts.length num))
  rw [← hrebuilt] at hcopied
  rw [← htells.text] at hinked
  refine ⟨fun hnil => ?_, us, hinked.spaced, hcopied⟩
  change grammar.rebuilt rule found.info.alt = [] at hnil
  rw [hnil] at hcopied
  cases hcopied
  exact absurd (congrArg String.toList hinked.eq_nil.1) (by simp)

/-- The text of the new rule is put together from pieces. -/
theorem operatorRule_eq (grammar : Grammar) {rule : RuleDef} (analysis : RuleAnalysis) :
    analysis.operatorRule rule = Layout.ofPieces rule.name (rule.args.map (·.text))
      (rule.returns.map (·.text)) (analysis.primary.map (grammar.piece rule))
      (analysis.operators.map fun info =>
        (precedenceOf rule.alts.length info.alt, grammar.piece rule info)) := by
  unfold RuleAnalysis.operatorRule Layout.ofPieces
  simp [piece, Function.comp_def]

end Grammar

end GrammarCompiler
