import GrammarCompiler.Proofs.Recursion.Carried
import Mathlib.Data.List.Perm.Basic

/-!
# Labels of a new rule

A rule that is replaced keeps its labels (`Grammar.replaceRule_labels`). The labels of alternatives are
cut out of the new text and kept in the record of the rule, with the numbers of the alternatives. The
labels of elements go over with the elements, and those of the operands that are taken off are added to
the new rule afterwards, so that each label is there once and for the same type of thing.
-/

namespace GrammarCompiler

/-! ## Labels of alternatives -/

/-- The label that an element is, and what it stands for. -/
def Element.label? : Element → Option (String × LabelType)
  | .labeled isList label _ inner _ => some (label, Alternative.labelType inner isList)
  | _ => none

theorem traced_label : Traced Element.label? Element.label? where
  unplaced e := by
    cases e with
    | labeled isList label token inner extent => cases inner <;> cases isList <;> rfl
    | _ => rfl
  copied e := by
    cases e with
    | labeled isList label token inner extent => cases inner <;> cases isList <;> rfl
    | _ => rfl
  demanding count name precedence e seen := by
    cases e with
    | labeled isList label token inner extent => cases inner <;> cases isList <;> rfl
    | _ => rfl
  block _ _ _ := rfl
  loop _ _ _ := rfl
  action _ := rfl
  predicate _ := rfl

def LabelDef.pair (label : LabelDef) : String × LabelType :=
  (label.label, label.type)

namespace Alternative

/-- The labels in an alternative and what they stand for. -/
def labels (alt : Alternative) : List (String × LabelType) :=
  alt.labelDefs.flatMap fun (_, defs) => defs.map LabelDef.pair

theorem labels_file (name : String) (label : LabelDef) (filed : Filed LabelDef) :
    ((Filed.file name label filed).flatMap fun (_, defs) => defs.map LabelDef.pair).Perm
      (label.pair :: filed.flatMap fun (_, defs) => defs.map LabelDef.pair) := by
  induction filed with
  | nil => exact .refl _
  | cons first rest ih =>
      obtain ⟨n, defs⟩ := first
      rw [Filed.file]
      split
      · simp only [List.flatMap_cons, List.map_append, List.map_cons, List.map_nil, List.append_assoc]
        exact List.perm_middle
      · simp only [List.flatMap_cons]
        exact (ih.append_left _).trans List.perm_middle

theorem labels_addLabel (alt : Alternative) (label : LabelDef) :
    (alt.addLabel label).labels.Perm (label.pair :: alt.labels) :=
  labels_file label.label label alt.labelDefs

theorem labels_foldl_addLabel (labels : List LabelDef) (alt : Alternative) :
    (labels.foldl addLabel alt).labels.Perm (labels.map LabelDef.pair ++ alt.labels) := by
  induction labels generalizing alt with
  | nil => exact .refl _
  | cons label labels ih =>
      exact (ih _).trans (((alt.labels_addLabel label).append_left _).trans List.perm_middle)

theorem labels_note (alt : Alternative) (e : Element) :
    (alt.note e).labels.Perm (e.label?.toList ++ alt.labels) := by
  cases e with
  | labeled isList label token inner extent => exact alt.labels_addLabel _
  | _ => exact .refl _

theorem labels_foldl_note (nodes : List Element) (alt : Alternative) :
    (nodes.foldl note alt).labels.Perm (nodes.filterMap Element.label? ++ alt.labels) := by
  induction nodes generalizing alt with
  | nil => exact .refl _
  | cons e nodes ih =>
      refine (ih _).trans (((alt.labels_note e).append_left _).trans ?_)
      rw [List.filterMap_cons]
      cases e.label? with
      | none => exact .refl _
      | some label => exact List.perm_middle

/-- The labels in an alternative as it is written. -/
theorem labels_ofAlt (num : Nat) (alt : Alt) :
    (ofAlt num alt).labels.Perm (alt.views Element.label?) := by
  have hall := labels_foldl_note alt.nodes { num, label := alt.label.map (·.name) }
  rwa [show labels { num, label := alt.label.map (·.name) } = [] from rfl, List.append_nil] at hall

theorem note_keeps (alt : Alternative) (e : Element) :
    (alt.note e).num = alt.num ∧ (alt.note e).label = alt.label := by
  cases e <;> exact ⟨rfl, rfl⟩

theorem ofAlt_keeps (num : Nat) (alt : Alt) :
    (ofAlt num alt).num = num ∧ (ofAlt num alt).label = alt.label.map (·.name) := by
  unfold ofAlt
  generalize halt : ({ num, label := alt.label.map (·.name) } : Alternative) = start
  have hstart : start.num = num ∧ start.label = alt.label.map (·.name) := by
    rw [← halt]
    exact ⟨rfl, rfl⟩
  clear halt
  generalize alt.nodes = nodes
  induction nodes generalizing start with
  | nil => exact hstart
  | cons e nodes ih =>
      obtain ⟨hnum, hlabel⟩ := start.note_keeps e
      exact ih _ ⟨hnum.trans hstart.1, hlabel.trans hstart.2⟩

end Alternative

/-! ## Labels of operands -/

/-- The label of an operand that is taken off, and what it stands for. -/
def RefLabel.pair (label : RefLabel) : String × LabelType :=
  label.labelDef.pair

/-- The labels of an operator are the label of its first operand and those of what goes over. -/
theorem Alt.views_withoutLeadingRef {alt : Alt} {first : Element} {rest : List Element} {name : String}
    (helements : alt.elements = first :: rest) (hfirst : first.refersTo name = true)
    (altLabel : Option String) : alt.views Element.label? =
      ((alt.withoutLeadingRef name altLabel).2.map RefLabel.pair).toList ++
        (Element.listNodes rest).filterMap Element.label? := by
  unfold Alt.views withoutLeadingRef
  rw [alt.nodes_eq, helements]
  dsimp only
  rw [if_pos hfirst, Element.listNodes, List.filterMap_append]
  refine congrArg (· ++ _) ?_
  unfold Element.refersTo at hfirst
  obtain ⟨r, hr, -⟩ := (Option.any_eq_true _ _).mp hfirst
  unfold Element.asRuleRef? at hr
  split at hr
  · rfl
  · next isList label token r' extent =>
      cases isList <;> rfl
  · cases hr

/-! ## Labels of a rule -/

namespace Grammar

theorem Tells.labels {grammar : Grammar} {rule : RuleDef} {alt : Alt × Nat} {found : AltAnalysis}
    (h : grammar.Tells rule alt found) (halt : alt ∈ rule.numbered) :
    alt.1.views Element.label? = (found.refLabel.map RefLabel.pair).toList ++
      (Element.listNodes (rule.carried found.info.alt)).filterMap Element.label? := by
  have hover := h.handsOver halt
  rw [h.refLabel]
  cases hshape : found.shape.isOperator with
  | true =>
      obtain ⟨first, helements, hfirst⟩ := hover.tail hshape
      rw [if_pos rfl]
      exact Alt.views_withoutLeadingRef helements hfirst _
  | false =>
      rw [if_neg Bool.false_ne_true, hover.all hshape, ← Alt.nodes_eq]
      rfl

/-- The labels in all alternatives. -/
theorem labels_numbered {grammar : Grammar} {rule : RuleDef} {alts : List (Alt × Nat)}
    {found : List AltAnalysis} (h : List.Forall₂ (grammar.Tells rule) alts found)
    (halts : alts ⊆ rule.numbered) :
    alts.flatMap (fun alt => alt.1.views Element.label?) =
      found.flatMap fun a => (a.refLabel.map RefLabel.pair).toList ++
        (Element.listNodes (rule.carried a.info.alt)).filterMap Element.label? := by
  induction h with
  | nil => rfl
  | cons hfirst _ ih =>
      obtain ⟨halt, halts⟩ := List.cons_subset.mp halts
      rw [List.flatMap_cons, List.flatMap_cons, hfirst.labels halt, ih halts]

/-- The labels of alternatives with their numbers. -/
theorem altLabels_numbered {grammar : Grammar} {rule : RuleDef} {alts : List (Alt × Nat)}
    {found : List AltAnalysis} (h : List.Forall₂ (grammar.Tells rule) alts found) :
    (found.map (·.info)).filterMap (fun info => info.label.map (·, info.alt)) =
      alts.filterMap fun alt => alt.1.label.map fun label => (label.name, alt.2) := by
  induction h with
  | nil => rfl
  | cons hfirst _ ih =>
      rw [List.map_cons, List.filterMap_cons, List.filterMap_cons, ih, hfirst.label, hfirst.num,
        Option.map_map]
      rfl

end Grammar

/-- A list that increases by its second components is what sorting by them makes of it. -/
theorem mergeSort_eq_of_increase {α : Type} {xs ys : List (α × Nat)} (hperm : xs.Perm ys)
    (hys : ys.Pairwise fun a b => a.2 < b.2) : xs.mergeSort (·.2 ≤ ·.2) = ys := by
  have hsorted : (xs.mergeSort fun a b : α × Nat => decide (a.2 ≤ b.2)).Pairwise
      fun a b => a.2 ≤ b.2 :=
    (List.pairwise_mergeSort (by simp; omega) (by simp; omega) xs).imp of_decide_eq_true
  have hsame := (List.mergeSort_perm xs fun a b : α × Nat => decide (a.2 ≤ b.2)).trans hperm
  refine hsame.eq_of_pairwise (fun a b ha hb hab hba => ?_) hsorted
    (hys.imp fun hlt => Nat.le_of_lt hlt)
  have hnodup : (ys.map (·.2)).Nodup := List.pairwise_map.mpr (hys.imp fun hlt => Nat.ne_of_lt hlt)
  exact List.inj_on_of_nodup_map hnodup (hsame.subset ha) hb (Nat.le_antisymm hab hba)

/-- The labels of the alternatives of a rule with the numbers of the alternatives. -/
def RuleDef.altLabels (rule : RuleDef) : List (String × Nat) :=
  rule.numbered.filterMap fun alt => alt.1.label.map fun label => (label.name, alt.2)

theorem RuleDef.altLabels_increase (rule : RuleDef) :
    rule.altLabels.Pairwise fun a b => a.2 < b.2 := by
  refine List.pairwise_filterMap.mpr ?_
  have hincrease : rule.numbered.Pairwise fun a b => a.2 < b.2 := by
    have hall := rule.map_numbered ▸ List.pairwise_lt_range' (s := 1) (n := rule.alts.length)
    exact List.pairwise_map.mp hall
  refine hincrease.imp fun hlt a ha b hb => ?_
  obtain ⟨label, -, rfl⟩ := Option.map_eq_some_iff.mp ha
  obtain ⟨label', -, rfl⟩ := Option.map_eq_some_iff.mp hb
  exact hlt

/-! ## A rule as it is collected -/

theorem Rule.altLabels_ofDef (definition : RuleDef) (defIndex index : Nat) :
    (Rule.ofDef definition defIndex index).altLabels = definition.altLabels := by
  show (definition.alts.mapIdx fun i alt => Alternative.ofAlt (i + 1) alt).filterMap _ =
    (definition.alts.zipIdx 1).filterMap _
  rw [List.mapIdx_eq_zipIdx_map, List.filterMap_map, List.zipIdx_succ, List.filterMap_map]
  refine List.filterMap_congr fun alt _ => ?_
  obtain ⟨hnum, hlabel⟩ := Alternative.ofAlt_keeps (alt.2 + 1) alt.1
  dsimp only [Function.comp]
  rw [hnum, hlabel, Option.map_map]
  rfl

theorem Rule.labels_ofDef (definition : RuleDef) (defIndex index : Nat) :
    ((Rule.ofDef definition defIndex index).alts.flatMap (·.labels)).Perm
      (definition.numbered.flatMap fun alt => alt.1.views Element.label?) := by
  show ((definition.alts.mapIdx fun i alt => Alternative.ofAlt (i + 1) alt).flatMap _).Perm
    ((definition.alts.zipIdx 1).flatMap _)
  rw [List.mapIdx_eq_zipIdx_map, List.flatMap_map, List.zipIdx_succ, List.flatMap_map]
  exact List.Perm.flatMap_left _ fun alt _ => Alternative.labels_ofAlt _ _

/-! ## The new rule -/

namespace Grammar.Rewrites

variable {grammar : Grammar} {name : String} {rule : Rule} {written parsed : RuleDef}
  {analysis : RuleAnalysis} (h : grammar.Rewrites name rule written analysis parsed)
  (hstands : written.Stands grammar.tokens)

include h hstands

/-- The alternatives of the new rule keep their labels and numbers. -/
theorem altLabels :
    (rule.rewritten (analysis.linked rule written parsed)).altLabels = written.altLabels := by
  show (analysis.linked rule written parsed).1.altLabels = _
  obtain ⟨-, hlr, -⟩ := h.linked hstands
  rw [hlr]
  refine mergeSort_eq_of_increase ?_ written.altLabels_increase
  show ((analysis.primary.mapIdx LeftRecursion.placed ++
    analysis.operators.mapIdx LeftRecursion.placed).filterMap _).Perm _
  -- an info that knows its place has its label and its number
  have hplaced : ∀ infos : List AltInfo, (infos.mapIdx LeftRecursion.placed).filterMap
      (fun info => info.label.map (·, info.alt)) =
        infos.filterMap fun info => info.label.map (·, info.alt) := fun infos => by
    rw [List.mapIdx_eq_zipIdx_map, List.filterMap_map]
    conv_rhs => rw [← List.zipIdx_map_fst 0 infos, List.filterMap_map]
    rfl
  rw [List.filterMap_append, hplaced, hplaced, ← List.filterMap_append]
  unfold RuleDef.altLabels
  rw [← altLabels_numbered h.tells]
  exact analysis.perm_infos.filterMap _

variable (hcommands : LacksCommands written.nodes)

include hcommands

/-- The labels in the new rule are those of the elements that went over. -/
theorem labels_nodes :
    ((analysis.linked rule written parsed).2.nodes.filterMap Element.label?).Perm
      (analysis.alts.flatMap fun found =>
        (Element.listNodes (written.carried found.info.alt)).filterMap Element.label?) := by
  have hprimary := congrArg List.flatten (h.views_primary hstands hcommands traced_label)
  have hoperators := congrArg List.flatten (h.views_operators hstands hcommands traced_label)
  rw [← List.flatMap_def] at hprimary hoperators
  rw [(h.linked hstands).2.2.1.views_nodes (fun _ _ _ => rfl) fun _ _ _ => rfl,
    List.flatMap_append, hprimary, hoperators]
  have hempty : (if analysis.primary = [] then [[]] else analysis.primary.map fun info =>
      (Element.listNodes (written.carried info.alt)).filterMap Element.label?).flatten =
        analysis.primary.flatMap fun info =>
          (Element.listNodes (written.carried info.alt)).filterMap Element.label? := by
    split
    · next hnil => rw [hnil]; rfl
    · rfl
  rw [hempty, ← List.flatMap_def, ← List.flatMap_append]
  exact (analysis.perm_infos.flatMap_right _).trans (.of_eq (List.flatMap_map ..))

/-- The one alternative of the new rule has the labels of all alternatives as written. -/
theorem labels : ∃ main, (rule.rewritten (analysis.linked rule written parsed)).alts = [main] ∧
    main.labels.Perm (written.numbered.flatMap fun alt => alt.1.views Element.label?) := by
  obtain ⟨-, hlr, hloop, -⟩ := h.linked hstands
  have hnodes := h.labels_nodes hstands hcommands
  have hrefLabels : (analysis.linked rule written parsed).1.refLabels = analysis.refLabels := by
    rw [hlr]
    rfl
  unfold Rule.rewritten
  rw [hrefLabels]
  generalize (analysis.linked rule written parsed).2 = definition at hnodes hloop
  obtain ⟨alts, options, extent, loop, options', label, outer, info, halts, -⟩ := hloop
  unfold RuleDef.nodes at hnodes
  unfold Rule.addLabels Rule.ofDef
  rw [halts] at hnodes ⊢
  rw [Alt.listNodes, Alt.listNodes, List.append_nil] at hnodes
  refine ⟨_, rfl, (Alternative.labels_foldl_addLabel _ _).trans ?_⟩
  have hsplit := List.flatMap_append_perm analysis.alts
    (fun found => (found.refLabel.map RefLabel.pair).toList) fun found =>
      (Element.listNodes (written.carried found.info.alt)).filterMap Element.label?
  rw [← labels_numbered h.tells (List.Subset.refl _)] at hsplit
  refine List.Perm.trans (List.Perm.append (.of_eq ?_) ?_) hsplit
  · unfold RuleAnalysis.refLabels
    rw [List.map_map, List.map_filterMap, List.filterMap_eq_flatMap_toList]
    rfl
  · exact (Alternative.labels_ofAlt _ _).trans hnodes

end Grammar.Rewrites

namespace Grammar

/-- Replacing a rule of a grammar without imports keeps the labels of its alternatives, with their
numbers, and all labels in them, with the types of what they stand for. -/
theorem replaceRule_labels {library : Library} {file source : String} {grammar : Grammar}
    {report : Report} (hgather : gather library file source = (some grammar, report))
    (himports : grammar.source.imports = []) {name : String} {rule : Rule} {written : RuleDef}
    (hrule : grammar.rule? name = some rule) (hwritten : grammar.definition? rule = some written)
    (hcommands : LacksCommands written.nodes)
    (hunquoted : UnquotedIn written.nodes grammar.tokens.tokens.toList)
    (hdone : (grammar.replaceRule .standard name).done = true) :
    ∃ next main,
      (grammar.replaceRule .standard name).grammar.rules[grammar.rules.findIdx (·.name == name)]? =
        some next ∧
      next.altLabels = rule.altLabels ∧ next.alts = [main] ∧
      main.labels.Perm (rule.alts.flatMap (·.labels)) := by
  have hstands := stands_gather hgather himports written (List.mem_of_getElem? hwritten) hunquoted
  obtain ⟨analysis, parsed, h⟩ := rewrites_of_done hrule hwritten hdone
  obtain ⟨index, hmade⟩ : ∃ index, rule = Rule.ofDef written rule.defIndex index := by
    obtain ⟨g, -, rfl⟩ := exists_parse_of_gather hgather himports
    exact exists_ofDef_collect (List.mem_of_find?_eq_some hrule) hwritten
  obtain ⟨main, hmain, hlabels⟩ := h.labels hstands hcommands
  refine ⟨_, main, h.next, ?_, hmain, ?_⟩
  · rw [h.altLabels hstands, hmade]
    exact (Rule.altLabels_ofDef written _ index).symm
  · rw [hmade]
    exact hlabels.trans (Rule.labels_ofDef written _ index).symm

/-- Labels on operands that are taken off, plain and in a list, and labels inside a block. -/
theorem replaceRule_labels_operands :
    ∃ (grammar : Grammar) (report : Report) (next : Rule) (main : Alternative),
      gather .empty "T.g" "parser grammar T; e : l=e (x=A | y+=B)* e # pow | m+=e C # post | n=X # atom ;"
        = (some grammar, report) ∧
      (grammar.replaceRule .standard "e").grammar.rules[0]? = some next ∧
      next.altLabels = [("pow", 1), ("post", 2), ("atom", 3)] ∧ next.alts = [main] ∧
      main.labels.Perm [("l", .rule), ("x", .token), ("y", .tokenList), ("m", .ruleList),
        ("n", .token)] := by
  have hgood : (gather .empty "T.g"
      "parser grammar T; e : l=e (x=A | y+=B)* e # pow | m+=e C # post | n=X # atom ;").1.any
      fun grammar => (grammar.rule? "e").any fun rule => (grammar.definition? rule).any fun written =>
        grammar.source.imports.isEmpty && (LacksCommands written.nodes &&
          (UnquotedIn written.nodes grammar.tokens.tokens.toList &&
            ((grammar.replaceRule .standard "e").done &&
              (grammar.rules.findIdx (·.name == "e") = 0 &&
                (rule.altLabels = [("pow", 1), ("post", 2), ("atom", 3)] &&
                  rule.alts.flatMap (·.labels) = [("l", .rule), ("x", .token), ("y", .tokenList),
                    ("m", .ruleList), ("n", .token)]))))) := by
    decide +kernel
  obtain ⟨grammar, hgrammar, hgood⟩ := (Option.any_eq_true _ _).mp hgood
  obtain ⟨rule, hrule, hgood⟩ := (Option.any_eq_true _ _).mp hgood
  obtain ⟨written, hwritten, hgood⟩ := (Option.any_eq_true _ _).mp hgood
  simp only [Bool.and_eq_true, decide_eq_true_eq] at hgood
  obtain ⟨himports, hcommands, hunquoted, hdone, hplace, haltLabels, hlabels⟩ := hgood
  obtain ⟨next, main, hnext, haltLabels', hmain, hlabels'⟩ :=
    replaceRule_labels (Prod.ext hgrammar rfl) (List.isEmpty_iff.mp himports) hrule hwritten hcommands
      hunquoted hdone
  rw [hplace] at hnext
  exact ⟨grammar, _, next, main, Prod.ext hgrammar rfl, hnext, haltLabels'.trans haltLabels, hmain,
    hlabels'.trans (.of_eq hlabels)⟩

end Grammar

end GrammarCompiler
