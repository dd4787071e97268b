import GrammarCompiler.Proofs.Grammar.Replaced
import GrammarCompiler.Proofs.Recursion.Carried

/-!
# Where the references of a new rule are shown

A reference in the new rule names the token it was copied from, and is shown where that token is
(`Grammar.replaceRule_located`): the references of every alternative of the new rule are those of the
alternative it stands for, in the same order and in the same places.
-/

namespace GrammarCompiler

/-! ## Numbers of tokens -/

namespace Text

theorem toList_toString (n : Nat) : (toString n).toList = Nat.toDigits 10 n := by
  rw [show toString n = n.repr from rfl, Nat.repr, String.toList_ofList]

theorem isDigit_of_mem_toString {n : Nat} {c : Char} (h : c ∈ Nat.toDigits 10 n) : c.isDigit = true :=
  Nat.isDigit_of_mem_toDigits (by decide) (by decide) h

theorem digits?_toString (n : Nat) : digits? (Nat.toDigits 10 n) = some n := by
  unfold digits?
  split
  · next hnil => exact absurd hnil Nat.toDigits_ne_nil
  · rw [if_pos (List.all_eq_true.mpr fun _ => isDigit_of_mem_toString)]
    refine congrArg some (Eq.trans ?_ (Nat.ofDigitChars_ten_toDigits (n := n)))
    rw [Nat.ofDigitChars_eq_foldl]
    simp only [Nat.mul_comm]

theorem index?_toString {n : Nat} (h : n < indexLimit) : index? (toString n) = some n := by
  unfold index?
  rw [toList_toString]
  split
  · next heq =>
      exact absurd (isDigit_of_mem_toString (n := n) (by rw [heq]; exact List.mem_cons_self ..))
        (show '+'.isDigit ≠ true by decide)
  · rw [digits?_toString, Option.filter_some, if_pos (decide_eq_true h)]

/-- A natural number is a precedence unless it is too large. -/
theorem precedence?_toString (n : Nat) :
    precedence? (toString n) = (some (Int.ofNat n)).filter fun n => minInt32 ≤ n && n ≤ maxInt32 := by
  unfold precedence?
  rw [toList_toString]
  split
  · next heq =>
      exact absurd (isDigit_of_mem_toString (n := n) (by rw [heq]; exact List.mem_cons_self ..))
        (show '+'.isDigit ≠ true by decide)
  · next heq =>
      exact absurd (isDigit_of_mem_toString (n := n) (by rw [heq]; exact List.mem_cons_self ..))
        (show '-'.isDigit ≠ true by decide)
  · rw [digits?_toString]
    rfl

end Text

/-! ## References and literals -/

/-- The text of a reference or a literal. -/
def Element.symbol? : Element → Option String
  | .ruleRef r => some r.name
  | .tokenRef name _ _ => some name
  | .quotation q => some q.text
  | _ => none

def references (nodes : List Element) : List Element :=
  nodes.filter (·.symbol?.isSome)

/-- Whether a reference is a copy of another one. -/
structure Element.CopyOf (n o : Element) : Prop where
  kind : n.kind = o.kind
  symbol : n.symbol? = o.symbol?
  origin : n.option? tokenIndexOption = some (toString o.extent.start)

/-- What a reference tells of the one it was copied from. -/
def Element.told? (e : Element) : Option (NodeKind × String × Option String) :=
  e.symbol?.map fun text => (e.kind, text, e.option? tokenIndexOption)

/-- What a copy of a reference tells of it. -/
def Element.copy? (e : Element) : Option (NodeKind × String × Option String) :=
  e.symbol?.map fun text => (e.kind, text, some (toString e.extent.start))

theorem traced_told : Traced Element.told? Element.copy? where
  unplaced e := by cases e <;> rfl
  copied e := by cases e <;> rfl
  demanding count name precedence e seen := by cases e <;> rfl
  block _ _ _ := rfl
  loop _ _ _ := rfl
  action _ := rfl
  predicate _ := rfl

theorem map_references (f : Element → String → NodeKind × String × Option String)
    (nodes : List Element) :
    (references nodes).map (fun e => e.symbol?.map (f e)) =
      (nodes.filterMap fun e => e.symbol?.map (f e)).map some := by
  unfold references
  induction nodes with
  | nil => rfl
  | cons e nodes ih =>
      rw [List.filter_cons, List.filterMap_cons]
      cases hsymbol : e.symbol? with
      | none => simpa using ih
      | some text => simpa [hsymbol] using ih

/-- References that tell the same are copies of each other, one by one. -/
theorem forall₂_references {nodes origins : List Element}
    (h : nodes.filterMap Element.told? = origins.filterMap Element.copy?) :
    List.Forall₂ Element.CopyOf (references nodes) (references origins) := by
  have hall : List.Forall₂ (fun n o : Element => n.told? = o.copy?) (references nodes)
      (references origins) := by
    have heq := congrArg (List.map some) h
    unfold Element.told? Element.copy? at heq
    rw [← map_references, ← map_references] at heq
    have hrefl := List.forall₂_eq_eq_eq (α := Option (NodeKind × String × Option String)) ▸ heq
    rwa [List.forall₂_map_left_iff, List.forall₂_map_right_iff] at hrefl
  have hsome : ∀ n ∈ references nodes, n.symbol?.isSome = true := fun n hn =>
    (List.mem_filter.mp hn).2
  refine ((List.forall₂_and_left _ _).mpr ⟨hsome, hall⟩).imp fun n o hno => ?_
  obtain ⟨hn, heq⟩ := hno
  obtain ⟨text, htext⟩ := Option.isSome_iff_exists.mp hn
  unfold Element.told? Element.copy? at heq
  rw [htext] at heq
  obtain ⟨text', htext', hsame⟩ := Option.map_eq_some_iff.mp heq.symm
  simp only [Prod.mk.injEq] at hsame
  obtain ⟨hkind, rfl, horigin⟩ := hsame
  exact ⟨hkind.symm, htext.trans htext'.symm, horigin.symm⟩

/-! ## Copies in the table -/

/-- A copy in a rule that has been read is shown where its origin is. -/
theorem RuleDef.shown_of_parse {name source : String} {table after : TokenTable} {rule : RuleDef}
    (h : RuleDef.parse name source table = (.ok rule, after)) (hsourced : table.Sourced)
    (hsize : table.size ≤ Text.indexLimit) {n o : Element} (hn : n ∈ rule.nodes)
    (hcopy : n.CopyOf o) (ho : o.extent.start < table.size) :
    ∃ t there, after.get? n.extent.start = some t ∧ table.get? o.extent.start = some there ∧
      t.position = there.position ∧ after.sourceName t.source = table.sourceName there.source := by
  have hextends := RuleDef.extends_of_parse name source table
  rw [h] at hextends
  obtain ⟨trees, behind, hbehind, -, hread, -, -, rfl⟩ := RuleDef.parse_eq_ok.mp h
  obtain ⟨used, htakes, hspelled⟩ := Cursor.takes_rule hread
  obtain ⟨hnodup, hwithin⟩ := hspelled.copiedTokens
  have hmem : (n.extent.start, o.extent.start) ∈ rule.copiedTokens := by
    refine List.mem_filterMap.mpr ⟨n, hn, ?_⟩
    rw [hcopy.origin, Option.bind_some, Text.index?_toString (Nat.lt_of_lt_of_le ho hsize)]
    rfl
  have hstart : (Cursor.atStart trees table.size).index = table.size := rfl
  have htrees : trees = used ++ behind.trees := htakes.1
  have hlt : n.extent.start < (table.addSource name trees).size := by
    have := hwithin _ hmem
    rw [TokenTable.size_addSource, htrees, TokenTree.widths_append]
    omega
  have horigin : o.extent.start ∉ rule.copiedTokens.map (·.1) := fun hmem' => by
    obtain ⟨copy, hcopy', heq⟩ := List.mem_map.mp hmem'
    have := hwithin copy hcopy'
    omega
  have ht : (table.addSource name trees).get? n.extent.start = some _ := Array.getElem?_eq_getElem hlt
  have hthere : table.get? o.extent.start = some _ := Array.getElem?_eq_getElem ho
  have hnamed := hextends.sourceName (hsourced.get? hthere)
  refine ⟨_, _, TokenTable.get?_relocateAll hnodup hmem horigin ht ?_, hthere, rfl, hnamed⟩
  rw [TokenTable.Extends.addSource .. |>.get? ho]
  exact hthere

namespace Grammar

/-- Whether a reference stands for another one: it has the kind and the text of the other, and is shown
where the other is, which has not moved. -/
structure ShownAs (after before : Grammar) (n o : Element) : Prop where
  kind : n.kind = o.kind
  symbol : n.symbol? = o.symbol?
  place : after.locate n.extent.start = before.locate o.extent.start
  kept : after.locate o.extent.start = before.locate o.extent.start

/-- Whether an alternative of a new rule points at an alternative as written and its references stand
for those of the other, all but the first `skip`. -/
def Shows (after before : Grammar) (lr : LeftRecursion) (written : RuleDef) (skip : Nat) (alt : Alt) :
    Prop :=
  ∃ k info origin, alt.info = some k ∧ lr.infos[k]? = some info ∧
    written.alts[info.index]? = some origin ∧
    List.Forall₂ (after.ShownAs before) (references alt.nodes) ((references origin.nodes).drop skip)

theorem locate_of_get? {grammar : Grammar} {i : Nat} {t : Token} (h : grammar.tokens.get? i = some t) :
    grammar.locate i = (grammar.tokens.sourceName t.source, some t.position) := by
  unfold locate
  rw [h]

namespace Rewrites

variable {grammar : Grammar} {name : String} {rule : Rule} {written parsed : RuleDef}
  {analysis : RuleAnalysis} (h : grammar.Rewrites name rule written analysis parsed)

include h

/-- A copy stands for its origin. -/
theorem shown (hsourced : grammar.tokens.Sourced) (hsize : grammar.tokens.size ≤ Text.indexLimit)
    {n o : Element} (hn : n ∈ parsed.nodes) (hcopy : n.CopyOf o)
    (ho : o.extent.start < grammar.tokens.size) :
    (grammar.replaceRule .standard name).grammar.ShownAs grammar n o := by
  obtain ⟨t, there, ht, hthere, hposition, hsource⟩ :=
    RuleDef.shown_of_parse h.parse hsourced hsize hn hcopy ho
  have hextends := RuleDef.extends_of_parse s!"<{rule.name} precedence rule>"
    (Layout.standard.rule (analysis.operatorRule written)) grammar.tokens
  rw [h.parse] at hextends
  refine ⟨hcopy.kind, hcopy.symbol, ?_, ?_⟩
  · rw [locate_of_get? ht, locate_of_get? hthere, hposition, hsource]
  · rw [locate_of_get? ((hextends.get? ho).trans hthere), locate_of_get? hthere,
      hextends.sourceName (hsourced.get? hthere)]

end Rewrites

end Grammar

/-! ## Blocks -/

theorem Element.isAnchored_of_symbol? {e : Element} (h : e.symbol?.isSome = true) :
    e.isAnchored = true := by
  cases e with
  | suffixed => cases h
  | epsilon => cases h
  | _ => rfl

/-- The references of an alternative stand in the table. -/
theorem Alt.Stands.lt_of_mem {table : TokenTable} {alt : Alt} {i : Nat} {ts : List TokenTree}
    (h : alt.Stands table i ts) {o : Element} (ho : o ∈ references alt.nodes) :
    o.extent.start < table.size := by
  obtain ⟨hmem, hsymbol⟩ := List.mem_filter.mp ho
  have hanchor : o.extent.start ∈ anchors alt.nodes :=
    List.mem_map_of_mem (List.mem_filter.mpr ⟨hmem, Element.isAnchored_of_symbol? hsymbol⟩)
  have hwithin := (Alt.Spelled.anchors alt h.spelled).within _ hanchor
  have hlength := h.standing.numbered.length_eq
  unfold TokenTable.slice at hlength
  rw [List.length_drop, List.length_take, Array.length_toList] at hlength
  unfold TokenTable.size
  omega

theorem references_append (nodes others : List Element) :
    references (nodes ++ others) = references nodes ++ references others :=
  List.filter_append ..

/-- The operand at the front of an alternative is one reference. -/
theorem Element.references_of_refersTo {e : Element} {name : String} (h : e.refersTo name = true) :
    ∃ r, references e.nodes = [r] := by
  unfold refersTo at h
  obtain ⟨r, hr, -⟩ := (Option.any_eq_true _ _).mp h
  unfold asRuleRef? at hr
  split at hr
  · exact ⟨_, rfl⟩
  · exact ⟨_, rfl⟩
  · cases hr

theorem RuleDef.nodes_subset_of_mem {rule : RuleDef} (h : rule.IsLoop) {alt : Alt}
    (halt : alt ∈ rule.primaryBlock ++ rule.operatorBlock) : alt.nodes ⊆ rule.nodes := by
  have hall : ∀ alts : List Alt, alt ∈ alts → alt.nodes ⊆ Alt.listNodes alts :=
    fun alts hmem => alt.nodes_eq ▸ Alt.nodes_subset_of_mem hmem
  obtain ⟨alts, options, extent, loop, options', label, outer, info, halts, hloop⟩ := h
  unfold RuleDef.primaryBlock RuleDef.operatorBlock at halt
  unfold RuleDef.nodes
  rw [halts] at halt ⊢
  intro e he
  rcases hloop with rfl | ⟨greedy, ops, options'', inner, outer', rfl⟩
  · have hmem := hall alts (by simpa using halt) he
    simp [Alt.listNodes, Alt.nodes, Element.listNodes, Element.nodes, hmem]
  · rcases List.mem_append.mp halt with halt | halt
    · have hmem := hall alts halt he
      simp [Alt.listNodes, Alt.nodes, Element.listNodes, Element.nodes, hmem]
    · have hmem := hall ops halt he
      simp [Alt.listNodes, Alt.nodes, Element.listNodes, Element.nodes, hmem]

namespace Grammar.Rewrites

variable {grammar : Grammar} {name : String} {rule : Rule} {written parsed : RuleDef}
  {analysis : RuleAnalysis} (h : grammar.Rewrites name rule written analysis parsed)
  (hstands : written.Stands grammar.tokens) (hsourced : grammar.tokens.Sourced)
  (hsize : grammar.tokens.size ≤ Text.indexLimit)

include h hstands hsourced hsize

/-- The references of a block stand for those of the alternatives that it holds. -/
theorem shows_block {lr : LeftRecursion} {before : Nat} {infos : List AltInfo} {skip : Nat}
    (hinfos : ∀ i info, infos[i]? = some info →
      lr.infos[before + i]? = some (LeftRecursion.placed i info))
    (horigin : ∀ info ∈ infos, ∃ origin ∈ written.alts, written.alts[info.index]? = some origin ∧
      references (Element.listNodes (written.carried info.alt)) = (references origin.nodes).drop skip)
    {block : List Alt} (hblock : ∀ alt ∈ block, alt.nodes ⊆ parsed.nodes)
    (hviews : block.map (·.views Element.told?) = infos.map fun info =>
      (Element.listNodes (written.carried info.alt)).filterMap Element.copy?)
    (hnone : ∀ alt ∈ block, alt.info = none) :
    ∀ alt ∈ LeftRecursion.pointAlts (List.range' before infos.length) block,
      (grammar.replaceRule .standard name).grammar.Shows grammar lr written skip alt := by
  intro alt halt
  obtain ⟨i, hi⟩ := List.mem_iff_getElem?.mp halt
  rw [LeftRecursion.getElem?_pointAlts _ hnone] at hi
  obtain ⟨alt, hget, rfl⟩ := Option.map_eq_some_iff.mp hi
  have hview := congrArg (·[i]?) hviews
  rw [List.getElem?_map, List.getElem?_map, hget] at hview
  obtain ⟨info, hinfo, hview⟩ := Option.map_eq_some_iff.mp hview.symm
  obtain ⟨hlt, -⟩ := List.getElem?_eq_some_iff.mp hinfo
  obtain ⟨origin, hmem, horigin, hreferences⟩ := horigin info (List.mem_of_getElem? hinfo)
  refine ⟨before + i, LeftRecursion.placed i info, origin, ?_, hinfos i info hinfo, horigin, ?_⟩
  · show (List.range' before infos.length)[i]? = _
    rw [List.getElem?_range' hlt, Nat.one_mul]
  obtain ⟨j, ts, horiginStands⟩ := hstands.alts origin hmem
  rw [← hreferences]
  have hcopies := forall₂_references hview.symm
  have hnodes : ∀ n ∈ references alt.nodes, n ∈ parsed.nodes := fun n hn =>
    hblock alt (List.mem_of_getElem? hget) (List.mem_filter.mp hn).1
  have hbounds : ∀ o ∈ references (Element.listNodes (written.carried info.alt)),
      o.extent.start < grammar.tokens.size := fun o ho =>
    horiginStands.lt_of_mem (List.mem_of_mem_drop (hreferences ▸ ho))
  have hall := (List.forall₂_and_left _ _).mpr ⟨hbounds, hcopies.flip⟩
  rw [Alt.nodes_eq] at hall hnodes ⊢
  refine ((List.forall₂_and_left _ _).mpr ⟨hnodes, hall.flip⟩).imp fun n o hno => ?_
  exact h.shown hsourced hsize hno.1 hno.2.2 hno.2.1

variable (hcommands : LacksCommands written.nodes)

include hcommands

/-- The references of the primary alternatives stand for those of the alternatives as written. -/
theorem shows_primary : ∀ alt ∈ (analysis.linked rule written parsed).2.primaryBlock,
    (alt.info = none ∧ references alt.nodes = []) ∨
      (grammar.replaceRule .standard name).grammar.Shows grammar
        (analysis.linked rule written parsed).1 written 0 alt := by
  obtain ⟨hloop, hlr, -, hprimary, -⟩ := h.linked hstands
  have hnone : ∀ alt ∈ parsed.primaryBlock, alt.info = none := fun alt halt =>
    h.info_eq_none hstands alt (List.mem_append_left _ halt)
  have hviews := h.views_primary hstands hcommands traced_told
  rw [hprimary, LeftRecursion.views_pointAlts] at hviews
  intro alt halt
  rw [hprimary] at halt
  by_cases hempty : analysis.primary = []
  · -- the one alternative holds nothing but the empty action
    rw [if_pos hempty] at hviews
    obtain ⟨i, hi⟩ := List.mem_iff_getElem?.mp halt
    rw [LeftRecursion.getElem?_pointAlts _ hnone] at hi
    obtain ⟨alt, hget, rfl⟩ := Option.map_eq_some_iff.mp hi
    have hview : alt.views Element.told? ∈ [[]] :=
      hviews ▸ List.mem_map_of_mem (List.mem_of_getElem? hget)
    have hcopies := @forall₂_references alt.nodes [] (List.mem_singleton.mp hview)
    rw [Alt.nodes_eq] at hcopies
    refine .inl ⟨by rw [hempty]; rfl, ?_⟩
    rw [Alt.nodes_eq]
    exact List.forall₂_nil_right_iff.mp hcopies
  · rw [if_neg hempty] at hviews
    rw [List.range_eq_range'] at halt
    refine .inr (h.shows_block hstands hsourced hsize (fun i info hinfo => ?_) (fun info hinfo => ?_)
      (fun alt halt => RuleDef.nodes_subset_of_mem hloop (List.mem_append_left _ halt)) hviews hnone
      alt halt)
    · rw [hlr, Nat.zero_add]
      show (analysis.primary.mapIdx LeftRecursion.placed ++ _)[i]? = _
      rw [List.getElem?_append_left (by simpa using (List.getElem?_eq_some_iff.mp hinfo).1),
        List.getElem?_mapIdx, hinfo]
      rfl
    · obtain ⟨origin, shape, hover, hshape⟩ := h.handsOver_primary hinfo
      exact ⟨origin, hover.mem, hover.get, by
        rw [hover.all hshape, ← Alt.nodes_eq, List.drop_zero]⟩

/-- The references of the operators stand for those of the alternatives as written, but for the
operands at their fronts. -/
theorem shows_operators : ∀ alt ∈ (analysis.linked rule written parsed).2.operatorBlock,
    (grammar.replaceRule .standard name).grammar.Shows grammar
      (analysis.linked rule written parsed).1 written 1 alt := by
  obtain ⟨hloop, hlr, -, -, hoperators⟩ := h.linked hstands
  have hviews := h.views_operators hstands hcommands traced_told
  rw [hoperators, LeftRecursion.views_pointAlts] at hviews
  intro alt halt
  rw [hoperators] at halt
  refine h.shows_block hstands hsourced hsize (fun i info hinfo => ?_) (fun info hinfo => ?_)
    (fun alt halt => RuleDef.nodes_subset_of_mem hloop (List.mem_append_right _ halt)) hviews
    (fun alt halt => h.info_eq_none hstands alt (List.mem_append_right _ halt)) alt halt
  · rw [hlr]
    show (analysis.primary.mapIdx LeftRecursion.placed ++
      analysis.operators.mapIdx LeftRecursion.placed)[_]? = _
    rw [List.getElem?_append_right (by simp), List.length_mapIdx, Nat.add_sub_cancel_left,
      List.getElem?_mapIdx, hinfo]
    rfl
  · obtain ⟨origin, shape, hover, hshape⟩ := h.handsOver_operator hinfo
    obtain ⟨first, helements, hfirst⟩ := hover.tail hshape
    obtain ⟨r, hr⟩ := Element.references_of_refersTo hfirst
    exact ⟨origin, hover.mem, hover.get, by
      rw [origin.nodes_eq, helements, Element.listNodes, references_append, hr]
      rfl⟩

end Grammar.Rewrites

/-! ## Replacing a rule -/

namespace Grammar

theorem sourced_gather {library : Library} {file source : String} {grammar : Grammar}
    {report : Report} (h : gather library file source = (some grammar, report))
    (himports : grammar.source.imports = []) : grammar.tokens.Sourced := by
  obtain ⟨g, hparse, rfl⟩ := exists_parse_of_gather h himports
  unfold GrammarDef.parse at hparse
  obtain ⟨trees, -, hread⟩ := ok_of_bind hparse
  obtain ⟨htokens, -⟩ := Cursor.takes_grammar hread
  show g.tokens.Sourced
  rw [htokens]
  exact TokenTable.sourced_empty.addSource file trees

/-- A rule of a grammar without imports keeps its name token when it is replaced, and the references of
the new rule are shown where they are written: those of each alternative where those of the alternative
it stands for are, one by one. -/
theorem replaceRule_located {library : Library} {file source : String} {grammar : Grammar}
    {report : Report} (hgather : gather library file source = (some grammar, report))
    (himports : grammar.source.imports = []) {name : String} {rule : Rule} {written : RuleDef}
    (hrule : grammar.rule? name = some rule) (hwritten : grammar.definition? rule = some written)
    (hcommands : LacksCommands written.nodes)
    (hunquoted : UnquotedIn written.nodes grammar.tokens.tokens.toList)
    (hsize : grammar.tokens.size ≤ Text.indexLimit)
    (hdone : (grammar.replaceRule .standard name).done = true) :
    ∃ next definition lr,
      (grammar.replaceRule .standard name).grammar.rules[grammar.rules.findIdx (·.name == name)]? =
        some next ∧
      (grammar.replaceRule .standard name).grammar.definition? next = some definition ∧
      next.leftRecursion = some lr ∧
      next.nameToken = rule.nameToken ∧ definition.nameToken = written.nameToken ∧
      references definition.nodes = (definition.primaryBlock ++ definition.operatorBlock).flatMap
        (fun alt => references alt.nodes) ∧
      (∀ alt ∈ definition.primaryBlock, (alt.info = none ∧ references alt.nodes = []) ∨
        (grammar.replaceRule .standard name).grammar.Shows grammar lr written 0 alt) ∧
      ∀ alt ∈ definition.operatorBlock,
        (grammar.replaceRule .standard name).grammar.Shows grammar lr written 1 alt := by
  have hstands := stands_gather hgather himports written (List.mem_of_getElem? hwritten) hunquoted
  have hsourced := sourced_gather hgather himports
  obtain ⟨analysis, parsed, h⟩ := rewrites_of_done hrule hwritten hdone
  have htoken : (analysis.linked rule written parsed).2.nameToken = rule.nameToken :=
    LeftRecursion.nameToken_link _ _
  have htied := (tied_gather hgather).names rule (List.mem_of_find?_eq_some hrule) written hwritten
  refine ⟨_, _, _, h.next, h.definition, rfl, htoken, htoken.trans htied.2.symm, ?_,
    h.shows_primary hstands hsourced hsize hcommands, h.shows_operators hstands hsourced hsize hcommands⟩
  have hviews := @RuleDef.IsLoop.views_nodes _ (Option.guard fun e : Element => e.symbol?.isSome) _
    (h.linked hstands).2.2.1 (fun _ _ _ => rfl) fun _ _ _ => rfl
  unfold Alt.views at hviews
  unfold references
  simpa only [List.filterMap_eq_filter] using hviews

/-- A label on the operand that is taken off, a block in a loop with a label in it, and a set. -/
theorem replaceRule_located_labels :
    ∃ (grammar : Grammar) (report : Report) (written : RuleDef),
      gather .empty "T.g" "parser grammar T; e : l=e ('^' | op=B)+ e | ~(A | B) ;" =
        (some grammar, report) ∧
      ∃ next definition lr, (grammar.replaceRule .standard "e").grammar.rules[0]? = some next ∧
        (grammar.replaceRule .standard "e").grammar.definition? next = some definition ∧
        next.leftRecursion = some lr ∧ definition.nameToken = written.nameToken ∧
        (∀ alt ∈ definition.primaryBlock, (alt.info = none ∧ references alt.nodes = []) ∨
          (grammar.replaceRule .standard "e").grammar.Shows grammar lr written 0 alt) ∧
        ∀ alt ∈ definition.operatorBlock,
          (grammar.replaceRule .standard "e").grammar.Shows grammar lr written 1 alt := by
  have hgood : (gather .empty "T.g"
      "parser grammar T; e : l=e ('^' | op=B)+ e | ~(A | B) ;").1.any fun grammar =>
      (grammar.rule? "e").any fun rule => (grammar.definition? rule).any fun written =>
        grammar.source.imports.isEmpty && (LacksCommands written.nodes &&
          (UnquotedIn written.nodes grammar.tokens.tokens.toList &&
            (grammar.tokens.size ≤ Text.indexLimit &&
              ((grammar.replaceRule .standard "e").done &&
                grammar.rules.findIdx (·.name == "e") = 0)))) := by
    decide +kernel
  obtain ⟨grammar, hgrammar, hgood⟩ := (Option.any_eq_true _ _).mp hgood
  obtain ⟨rule, hrule, hgood⟩ := (Option.any_eq_true _ _).mp hgood
  obtain ⟨written, hwritten, hgood⟩ := (Option.any_eq_true _ _).mp hgood
  simp only [Bool.and_eq_true, decide_eq_true_eq] at hgood
  obtain ⟨himports, hcommands, hunquoted, hsize, hdone, hplace⟩ := hgood
  obtain ⟨next, definition, lr, hnext, hdefinition, hlr, -, htoken, -, hprimary, hoperators⟩ :=
    replaceRule_located (Prod.ext hgrammar rfl) (List.isEmpty_iff.mp himports) hrule hwritten hcommands
      hunquoted hsize hdone
  rw [hplace] at hnext
  exact ⟨grammar, _, written, Prod.ext hgrammar rfl, next, definition, lr, hnext, hdefinition, hlr,
    htoken, hprimary, hoperators⟩

end Grammar

end GrammarCompiler
