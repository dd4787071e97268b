import GrammarCompiler.Proofs.Recursion.Linked
import GrammarCompiler.Proofs.Recursion.Rebuilt
import GrammarCompiler.Proofs.Recursion.Rewritten

/-!
# What becomes of the alternatives of a left-recursive rule

Every alternative of a rule that is replaced has one place in the new rule
(`Grammar.replaceRule_describes`). The record of the new rule tells which (`LeftRecursion.Describes`):
each info leads to the alternative as written and to what stands for it in the new rule, and both of
them lead back to the info.
-/

namespace GrammarCompiler

/-! ## What an alternative holds -/

/-- Whether an alternative holds elements behind what was put in front of them. The elements may have got
other places and options that tell where they came from or what they demand, and alternatives inside them
may have lost theirs. -/
def Alt.Holds (alt : Alt) (front elements : List Element) : Prop :=
  ∃ added own, alt.elements = added ++ own ∧ Element.allUnplaced added = front ∧
    Element.allPlain own = Element.allPlain elements

theorem Alt.holds_of_unplaced {alt : Alt} {front row elements : List Element}
    (h : Element.allUnplaced alt.elements = front ++ row)
    (hrow : Element.allPlain row = Element.allPlain elements) : alt.Holds front elements := by
  unfold Element.allUnplaced at h
  rw [Element.allRecast_eq_map] at h
  obtain ⟨added, own, helements, hadded, hown⟩ := List.map_eq_append_iff.mp h
  rw [← Element.allRecast_eq_map] at hadded hown
  refine ⟨added, own, helements, hadded, ?_⟩
  rw [← hrow, ← hown]
  exact (Element.allPlain_unplaced own).symm

/-! ## Pointers that agree -/

namespace LeftRecursion

/-- Whether the infos `places` are those of the alternatives of a block, one after another: each knows
its place, the alternative there holds what goes over from the alternative that the info is about, and no
alternative points at another info. -/
structure Linked (lr : LeftRecursion) (written : RuleDef) (places : List Nat) (block : List Alt)
    (front : Nat → Nat → List Element) : Prop where
  toAlt : ∀ i k, places[i]? = some k → ∃ (info : AltInfo) (alt : Alt), lr.infos[k]? = some info ∧
    info.place = some i ∧ block[i]? = some alt ∧ alt.Holds (front i info.alt) (written.carried info.alt)
  toInfo : ∀ (i : Nat) (alt : Alt), block[i]? = some alt → alt.info = places[i]?

/-- Whether a record describes how the alternatives of a rule went over into a new one. -/
structure Describes (lr : LeftRecursion) (written next : RuleDef) : Prop where
  /-- The primary alternatives, as they are written. -/
  primary : lr.primaryInfos.map (·.alt) = written.numbersOf (!·.isOperator)
  /-- The operators, shape by shape. -/
  operators : lr.operatorInfos.map (·.1) = written.numbersOf (· == .binary) ++
    written.numbersOf (· == .ternary) ++ written.numbersOf (· == .suffix)
  keys : ∀ operator ∈ lr.operatorInfos, operator.2.alt = operator.1
  increase : ∀ p, (written.numbersOf p).Pairwise (· < ·)
  once : (lr.primaryInfos.map (·.alt) ++ lr.operatorInfos.map (·.1)).Perm
    (List.range' 1 written.alts.length)
  infos : lr.primary ++ lr.operators.map (·.2) = List.range lr.infos.length
  origin : ∀ k info, lr.infos[k]? = some info → ∃ alt, written.alts[info.alt - 1]? = some alt ∧
    lr.written[info.alt - 1]? = some { alt with info := some k }
  /-- The first alternative of the block begins with an action. -/
  primaryLinked : lr.Linked written lr.primary next.primaryBlock fun i _ =>
    if i = 0 then [emptyAction] else []
  /-- Operators stand behind their guards. -/
  operatorsLinked : lr.Linked written (lr.operators.map (·.2)) next.operatorBlock fun _ num =>
    [guardElement (precedenceOf written.alts.length num)]

/-- Infos in a row and a block they are the infos of. -/
theorem linked_row (lr : LeftRecursion) (written : RuleDef) (before infos after : List AltInfo)
    (hinfos : lr.infos = before ++ infos.mapIdx placed ++ after) {block : List Alt}
    (hnone : ∀ alt ∈ block, alt.info = none) (hlength : infos.length ≤ block.length)
    (front : Nat → Nat → List Element)
    (hholds : ∀ i (info : AltInfo), infos[i]? = some info → ∀ alt : Alt, block[i]? = some alt →
      alt.Holds (front i info.alt) (written.carried info.alt)) :
    lr.Linked written (List.range' before.length infos.length)
      (pointAlts (List.range' before.length infos.length) block) front := by
  constructor
  · intro i k hk
    obtain ⟨hi, rfl⟩ : i < infos.length ∧ k = before.length + i := by
      obtain ⟨hi, hk⟩ := List.getElem?_eq_some_iff.mp hk
      rw [List.length_range'] at hi
      rw [List.getElem_range', Nat.one_mul] at hk
      exact ⟨hi, hk.symm⟩
    have hinfo : infos[i]? = some infos[i] := List.getElem?_eq_getElem hi
    have halt : block[i]? = some block[i] := List.getElem?_eq_getElem (by omega)
    refine ⟨placed i infos[i], { block[i] with info := some (before.length + i) }, ?_, rfl, ?_,
      hholds i infos[i] hinfo block[i] halt⟩
    · rw [hinfos, List.append_assoc, List.getElem?_append_right (Nat.le_add_right ..),
        Nat.add_sub_cancel_left, List.getElem?_append_left (by simpa using hi), List.getElem?_mapIdx,
        hinfo]
      rfl
    · rw [getElem?_pointAlts _ hnone, halt, hk]
      rfl
  · intro i alt halt
    rw [getElem?_pointAlts _ hnone] at halt
    obtain ⟨alt', -, rfl⟩ := Option.map_eq_some_iff.mp halt
    rfl

section Describing

variable {grammar : Grammar} {written : RuleDef} {analysis : RuleAnalysis}
  (h : List.Forall₂ (grammar.Tells written) written.numbered analysis.alts)

include h

/-- The infos have the numbers of the alternatives. -/
theorem perm_infos (refLabels : List RefLabel) :
    ((ofLinked analysis.primary analysis.operators refLabels written.alts).infos.map (·.alt)).Perm
      (List.range' 1 written.alts.length) := by
  have hperm := Grammar.perm_nums h
  rw [← Grammar.nums_primary h, ← Grammar.nums_operators h] at hperm
  show ((analysis.primary.mapIdx placed ++ analysis.operators.mapIdx placed).map (·.alt)).Perm _
  rwa [List.map_append, nums_placed, nums_placed]

/-- Each info leads to the alternative as written, and back. -/
theorem origin_ofLinked (refLabels : List RefLabel) {k : Nat} {info : AltInfo}
    (hk : (ofLinked analysis.primary analysis.operators refLabels written.alts).infos[k]? = some info) :
    ∃ alt, written.alts[info.alt - 1]? = some alt ∧
      (ofLinked analysis.primary analysis.operators refLabels written.alts).written[info.alt - 1]? =
        some { alt with info := some k } := by
  have hperm := perm_infos h refLabels
  generalize hlr : ofLinked analysis.primary analysis.operators refLabels written.alts = lr at hk hperm
  have hbounds : ∀ info ∈ lr.infos, 1 ≤ info.alt := fun info hinfo =>
    (List.mem_range'_1.mp (hperm.subset (List.mem_map_of_mem hinfo))).1
  have hnodup : (lr.infos.map (·.index)).Nodup := by
    have halts : (lr.infos.map (·.alt)).Nodup := hperm.nodup_iff.mpr List.nodup_range'
    refine List.pairwise_map.mpr ((List.pairwise_map.mp halts).imp_of_mem ?_)
    intro a b ha hb hne heq
    have hfirst := hbounds a ha
    have hsecond := hbounds b hb
    unfold AltInfo.index at heq
    omega
  have hmem : info.alt ∈ List.range' 1 written.alts.length :=
    hperm.subset (List.mem_map_of_mem (List.mem_of_getElem? hk))
  rw [List.mem_range'_1] at hmem
  have halt : written.alts[info.alt - 1]? = some written.alts[info.alt - 1] :=
    List.getElem?_eq_getElem (by omega)
  refine ⟨_, halt, ?_⟩
  have hall := getElem?_pointWritten hnodup written.alts hk
  rw [show info.index = info.alt - 1 from rfl, halt] at hall
  subst hlr
  exact hall

end Describing

/-! ## Blocks -/

theorem elements_of_unplaced {alt : Alt} {es : List Element} (h : alt.unplaced = Alt.ofElements es) :
    Element.allUnplaced alt.elements = es := by
  obtain ⟨elements, options, label, extent, info⟩ := alt
  exact (Alt.mk.inj h).1

theorem length_withAction_le (pieces : List Piece) :
    pieces.length ≤ (Piece.withAction pieces).length := by
  cases pieces with
  | nil => exact Nat.zero_le _
  | cons => exact Nat.le_refl _

theorem length_primary_le {block : List Alt} {infos : List AltInfo} {pieceOf : AltInfo → Piece}
    (h : Alt.allUnplaced block = (Piece.withAction (infos.map pieceOf)).map
      fun piece => Alt.ofElements piece.elements) : infos.length ≤ block.length := by
  have hlength := congrArg List.length h
  rw [Alt.allUnplaced, Alt.allRecast_eq_map] at hlength
  have hle := length_withAction_le (infos.map pieceOf)
  simp only [List.length_map] at hlength hle
  omega

theorem length_operators_le {block : List Alt} {infos : List AltInfo}
    {pieceOf : AltInfo → Nat × Piece} (h : Alt.allUnplaced block = (infos.map pieceOf).map
      fun (precedence, piece) => Alt.ofElements (piece.withGuard precedence).elements) :
    infos.length ≤ block.length := by
  have hlength := congrArg List.length h
  rw [Alt.allUnplaced, Alt.allRecast_eq_map] at hlength
  simp only [List.length_map] at hlength
  omega

/-- The empty action stands in the first alternative. -/
theorem elements_withAction {pieces : List Piece} {i : Nat} {piece : Piece}
    (h : pieces[i]? = some piece) : ∃ piece', (Piece.withAction pieces)[i]? = some piece' ∧
      piece'.elements = (if i = 0 then [emptyAction] else []) ++ piece.elements := by
  cases pieces with
  | nil => cases h
  | cons first pieces =>
      cases i with
      | zero =>
          obtain rfl := Option.some.inj h
          exact ⟨_, rfl, rfl⟩
      | succ i => exact ⟨piece, h, rfl⟩

section Blocks

variable {grammar : Grammar} {written : RuleDef} (hcommands : LacksCommands written.nodes)
  {infos : List AltInfo} {block : List Alt} {i : Nat} {info : AltInfo} {alt : Alt}

include hcommands

theorem holds_primary (h : Alt.allUnplaced block =
      (Piece.withAction (infos.map (grammar.piece written))).map
        fun piece => Alt.ofElements piece.elements)
    (hinfo : infos[i]? = some info) (halt : block[i]? = some alt) :
    alt.Holds (if i = 0 then [emptyAction] else []) (written.carried info.alt) := by
  have hget : (infos.map (grammar.piece written))[i]? = some (grammar.piece written info) := by
    rw [List.getElem?_map, hinfo]
    rfl
  obtain ⟨piece, hpiece, helements⟩ := elements_withAction hget
  have hplace := congrArg (fun alts : List Alt => alts[i]?) h
  rw [Alt.allUnplaced, Alt.allRecast_eq_map] at hplace
  simp only [List.getElem?_map, halt, hpiece, Option.map_some, Option.some.injEq] at hplace
  exact Alt.holds_of_unplaced ((elements_of_unplaced hplace).trans helements)
    (grammar.allPlain_rebuilt (hcommands.carried info.alt))

theorem holds_operator (h : Alt.allUnplaced block = (infos.map fun info =>
      (precedenceOf written.alts.length info.alt, grammar.piece written info)).map
        fun (precedence, piece) => Alt.ofElements (piece.withGuard precedence).elements)
    (hinfo : infos[i]? = some info) (halt : block[i]? = some alt) :
    alt.Holds [guardElement (precedenceOf written.alts.length info.alt)] (written.carried info.alt) := by
  have hplace := congrArg (fun alts : List Alt => alts[i]?) h
  rw [Alt.allUnplaced, Alt.allRecast_eq_map] at hplace
  simp only [List.getElem?_map, halt, hinfo, Option.map_some, Option.some.injEq] at hplace
  exact Alt.holds_of_unplaced (elements_of_unplaced hplace)
    (grammar.allPlain_rebuilt (hcommands.carried info.alt))

end Blocks

/-- The record of a rule that has been read from its text, once it is linked. -/
theorem describes_link {grammar : Grammar} {written : RuleDef} {analysis : RuleAnalysis}
    (hcommands : LacksCommands written.nodes)
    (h : List.Forall₂ (grammar.Tells written) written.numbered analysis.alts) (rule : RuleDef)
    (hrule : Alt.allUnplaced rule.alts = [Alt.ofElements (Layout.mainElements
      (analysis.primary.map (grammar.piece written)) (analysis.operators.map fun info =>
        (precedenceOf written.alts.length info.alt, grammar.piece written info)))])
    (hnone : ∀ alt ∈ rule.primaryBlock ++ rule.operatorBlock, alt.info = none)
    (refLabels : List RefLabel) :
    let linked := (ofInfos analysis.primary analysis.operators refLabels written.alts).link rule
    linked.1.Describes written linked.2 ∧ linked.2.alts.length = 1 := by
  obtain ⟨hloop, hprimary, hoperators⟩ := RuleDef.isLoop_of_unplaced hrule
  have hcount := length_primary_le hprimary
  have hcount' := length_operators_le hoperators
  obtain ⟨hlr, hlength, hprimary', hoperators'⟩ :=
    link_ofInfos analysis.primary analysis.operators refLabels written.alts hloop hcount hcount'
  intro linked
  refine ⟨?_, hlength⟩
  have hplaces := places_ofInfos analysis.primary analysis.operators refLabels written.alts
  have hprimaryInfos :=
    primaryInfos_ofLinked analysis.primary analysis.operators refLabels written.alts
  have hoperatorInfos :=
    operatorInfos_ofLinked analysis.primary analysis.operators refLabels written.alts
  rw [← hlr] at hprimaryInfos hoperatorInfos
  have hprimaryNums : linked.1.primaryInfos.map (·.alt) = analysis.primary.map (·.alt) := by
    rw [hprimaryInfos, nums_placed]
  have hoperatorNums : linked.1.operatorInfos.map (·.1) = analysis.operators.map (·.alt) := by
    rw [hoperatorInfos, List.map_map]
    exact nums_placed analysis.operators
  have hplaces' : linked.1.operators.map (·.2) =
      List.range' analysis.primary.length analysis.operators.length := by
    rw [hlr]
    exact hplaces
  exact {
    primary := hprimaryNums.trans (Grammar.nums_primary h)
    operators := hoperatorNums.trans (Grammar.nums_operators h)
    keys := by
      rw [hoperatorInfos]
      exact List.forall_mem_map.mpr fun info _ => rfl
    increase := written.numbersOf_increase
    once := by
      rw [hprimaryNums, hoperatorNums, Grammar.nums_primary h, Grammar.nums_operators h]
      exact Grammar.perm_nums h
    infos := by
      rw [hplaces', hlr]
      show List.range analysis.primary.length ++ _ =
        List.range (analysis.primary.mapIdx placed ++ analysis.operators.mapIdx placed).length
      rw [List.length_append, List.length_mapIdx, List.length_mapIdx, List.range_eq_range',
        List.range_eq_range', ← List.range'_append_1, Nat.zero_add]
    origin := fun k info hk => by
      rw [hlr] at hk ⊢
      exact origin_ofLinked h refLabels hk
    primaryLinked := by
      have hrow := linked_row linked.1 written [] analysis.primary (analysis.operators.mapIdx placed)
        (by rw [hlr]; rfl) (fun alt halt => hnone alt (List.mem_append_left _ halt)) hcount
        (fun i _ => if i = 0 then [emptyAction] else [])
        fun i info hinfo alt halt => holds_primary hcommands hprimary hinfo halt
      rw [List.length_nil, ← List.range_eq_range', ← hprimary'] at hrow
      rw [hlr] at hrow ⊢
      exact hrow
    operatorsLinked := by
      have hrow := linked_row linked.1 written (analysis.primary.mapIdx placed) analysis.operators []
        (by rw [hlr, List.append_nil]; rfl)
        (fun alt halt => hnone alt (List.mem_append_right _ halt)) hcount'
        (fun _ num => [guardElement (precedenceOf written.alts.length num)])
        fun i info hinfo alt halt => holds_operator hcommands hoperators hinfo halt
      rw [List.length_mapIdx, ← hoperators', ← hplaces'] at hrow
      exact hrow }

end LeftRecursion

/-! ## Infos of a rule that is read -/

theorem Alt.AllSpelled.info_eq_none {as : List Alt} {i : Nat} {ts : List TokenTree}
    (h : Alt.AllSpelled i ts as) : ∀ alt ∈ as, alt.info = none := by
  induction as generalizing i ts with
  | nil => exact nofun
  | cons a as ih =>
      rw [Alt.AllSpelled] at h
      obtain ⟨front, back, -, ha, hback⟩ := h
      refine List.forall_mem_cons.mpr ⟨?_, ?_⟩
      · obtain ⟨elements, options, label, extent, info⟩ := a
        rw [Alt.Spelled] at ha
        exact ha.1
      · rcases hback with ⟨rfl, -⟩ | ⟨_, _, rest, -, -, has⟩
        · exact nofun
        · exact ih has

/-- No alternative points anywhere before it is linked. -/
theorem RuleDef.IsLoop.info_eq_none {rule : RuleDef} (h : rule.IsLoop) {i : Nat} {ts : List TokenTree}
    (hrule : rule.Spelled i ts) :
    ∀ alt ∈ rule.primaryBlock ++ rule.operatorBlock, alt.info = none := by
  obtain ⟨-, -, _, _, body, -, -, -, -, -, -, -, -, halts, -⟩ := hrule
  obtain ⟨alts, options, inner, loop, options', label, outer, info, hrule, hloop⟩ := h
  unfold RuleDef.primaryBlock RuleDef.operatorBlock
  rw [hrule] at halts ⊢
  rw [Alt.AllSpelled] at halts
  obtain ⟨_, _, -, hmain, -⟩ := halts
  rw [Alt.Spelled] at hmain
  obtain ⟨-, _, _, _, -, -, -, -, ⟨-, hempty⟩ | ⟨-, -, helements⟩⟩ := hmain
  · cases hempty
  rw [Element.ListSpelled] at helements
  obtain ⟨_, _, -, hfirst, -, hrest⟩ := helements
  rw [Element.Spelled] at hfirst
  obtain ⟨-, -, _, _, _, -, hprimary⟩ := hfirst
  refine List.forall_mem_append.mpr ⟨hprimary.info_eq_none, ?_⟩
  rcases hloop with rfl | ⟨greedy, ops, options'', inner', outer', rfl⟩
  · exact nofun
  · rw [Element.ListSpelled] at hrest
    obtain ⟨_, _, -, hsecond, -⟩ := hrest
    rw [Element.Spelled] at hsecond
    obtain ⟨-, -, _, _, -, hblock, -⟩ := hsecond
    rw [Element.Spelled] at hblock
    obtain ⟨-, -, _, _, _, -, hoperators⟩ := hblock
    exact hoperators.info_eq_none

/-! ## Replacing a rule -/

namespace Grammar

/-- What is read from the text of a rule that has been analyzed. -/
theorem unplaced_of_parse {grammar : Grammar} {written : RuleDef} (h : written.Stands grammar.tokens)
    {analysis : RuleAnalysis}
    (hanalysis : List.Forall₂ (grammar.Tells written) written.numbered analysis.alts)
    {source : String} {table after : TokenTable} {definition : RuleDef}
    (hparse : RuleDef.parse source (Layout.standard.rule (analysis.operatorRule written)) table =
      (.ok definition, after)) :
    Alt.allUnplaced definition.alts = [Alt.ofElements (Layout.mainElements
      (analysis.primary.map (grammar.piece written)) (analysis.operators.map fun info =>
        (precedenceOf written.alts.length info.alt, grammar.piece written info)))] := by
  obtain ⟨arguments, harguments⟩ := h.arguments
  obtain ⟨results, hresults⟩ := h.results
  rw [operatorRule_eq grammar] at hparse
  refine Layout.alts_of_parse h.name harguments hresults ?_ ?_ hparse
  · exact List.forall_mem_map.mpr fun info hinfo =>
      isCopy_piece h hanalysis (List.mem_append_left _ hinfo)
  · exact List.forall_mem_map.mpr fun info hinfo =>
      isCopy_piece h hanalysis (List.mem_append_right _ hinfo)

/-- A rule that stands in the table of its grammar, once it is replaced. -/
theorem describes_of_stands {grammar : Grammar} {name : String} {rule : Rule} {written : RuleDef}
    (hrule : grammar.rule? name = some rule) (hwritten : grammar.definition? rule = some written)
    (hstands : written.Stands grammar.tokens) (hcommands : LacksCommands written.nodes)
    (hdone : (grammar.replaceRule .standard name).done = true) :
    ∃ next definition lr,
      (grammar.replaceRule .standard name).grammar.rules[grammar.rules.findIdx (·.name == name)]? =
        some next ∧
      (grammar.replaceRule .standard name).grammar.definition? next = some definition ∧
      next.leftRecursion = some lr ∧ next.alts.length = 1 ∧
      lr.Describes written definition := by
  obtain ⟨analysis, parsed, hrewrites⟩ := rewrites_of_done hrule hwritten hdone
  have hunplaced := unplaced_of_parse hstands hrewrites.tells hrewrites.parse
  have hloop := (RuleDef.isLoop_of_unplaced hunplaced).1
  obtain ⟨trees, d, hd, -, hread, -⟩ := RuleDef.parse_eq_ok.mp hrewrites.parse
  obtain ⟨used, -, hspelled⟩ := Cursor.takes_rule hread
  obtain ⟨hdescribes, hlength⟩ := LeftRecursion.describes_link hcommands hrewrites.tells
    { parsed with nameToken := rule.nameToken } hunplaced (hloop.info_eq_none hspelled)
    analysis.refLabels
  refine ⟨_, _, _, hrewrites.next, hrewrites.definition, rfl, ?_, hdescribes⟩
  show (List.modify _ 0 _).length = 1
  rw [List.length_modify]
  show ((analysis.linked rule written parsed).2.alts.mapIdx _).length = 1
  rw [List.length_mapIdx]
  exact hlength

/-- Replacing a rule of a grammar without imports gives every alternative of the rule one place: the
primary alternatives in the block that the new rule begins with, the operators shape by shape in the
loop behind it. The record of the new rule links both with the alternatives as written. -/
theorem replaceRule_describes {library : Library} {file source : String} {grammar : Grammar}
    {report : Report} (hgather : gather library file source = (some grammar, report))
    (himports : grammar.source.imports = []) {name : String} {rule : Rule} {written : RuleDef}
    (hrule : grammar.rule? name = some rule) (hwritten : grammar.definition? rule = some written)
    (hcommands : LacksCommands written.nodes)
    (hunquoted : UnquotedIn written.nodes grammar.tokens.tokens.toList)
    (hdone : (grammar.replaceRule .standard name).done = true) :
    ∃ next definition lr,
      (grammar.replaceRule .standard name).grammar.rules[grammar.rules.findIdx (·.name == name)]? =
        some next ∧
      (grammar.replaceRule .standard name).grammar.definition? next = some definition ∧
      next.leftRecursion = some lr ∧ next.alts.length = 1 ∧
      lr.Describes written definition :=
  describes_of_stands hrule hwritten
    (stands_gather hgather himports written (List.mem_of_getElem? hwritten) hunquoted) hcommands hdone

/-- A suffix, a primary alternative and a binary operator with a label on its first operand. -/
theorem replaceRule_describes_binary :
    ∃ (grammar : Grammar) (report : Report) (rule : Rule) (written : RuleDef),
      gather .empty "T.g" "parser grammar T; e : e B | A e | <assoc=right> l=e '^' e ;" =
        (some grammar, report) ∧
      grammar.rule? "e" = some rule ∧ grammar.definition? rule = some written ∧
      written.numbersOf (!·.isOperator) = [2] ∧ written.numbersOf (· == .binary) = [3] ∧
      written.numbersOf (· == .suffix) = [1] ∧
      ∃ next definition lr, (grammar.replaceRule .standard "e").grammar.rules[0]? = some next ∧
        (grammar.replaceRule .standard "e").grammar.definition? next = some definition ∧
        next.leftRecursion = some lr ∧ next.alts.length = 1 ∧
        lr.Describes written definition := by
  have hgood : (gather .empty "T.g"
      "parser grammar T; e : e B | A e | <assoc=right> l=e '^' e ;").1.any fun grammar =>
      (grammar.rule? "e").any fun rule => (grammar.definition? rule).any fun written =>
        (grammar.source.imports.isEmpty && LacksCommands written.nodes &&
          UnquotedIn written.nodes grammar.tokens.tokens.toList &&
          (grammar.replaceRule .standard "e").done) &&
        (grammar.rules.findIdx (·.name == "e") = 0 && written.numbersOf (!·.isOperator) = [2] &&
          written.numbersOf (· == .binary) = [3] && written.numbersOf (· == .suffix) = [1]) := by
    decide +kernel
  obtain ⟨grammar, hgrammar, hgood⟩ := (Option.any_eq_true _ _).mp hgood
  obtain ⟨rule, hrule, hgood⟩ := (Option.any_eq_true _ _).mp hgood
  obtain ⟨written, hwritten, hgood⟩ := (Option.any_eq_true _ _).mp hgood
  obtain ⟨hmay, hnumbers⟩ := (Bool.and_eq_true _ _).mp hgood
  obtain ⟨⟨⟨himports, hcommands⟩, hunquoted⟩, hdone⟩ : ((_ ∧ _) ∧ _) ∧ _ := by
    simpa only [Bool.and_eq_true, decide_eq_true_eq] using hmay
  obtain ⟨⟨⟨hplace, hprimary⟩, hbinary⟩, hsuffix⟩ : ((_ ∧ _) ∧ _) ∧ _ := by
    simpa only [Bool.and_eq_true, decide_eq_true_eq] using hnumbers
  refine ⟨grammar, _, rule, written, Prod.ext hgrammar rfl, hrule, hwritten, hprimary, hbinary, hsuffix,
    ?_⟩
  rw [← hplace]
  exact replaceRule_describes (Prod.ext hgrammar rfl) (List.isEmpty_iff.mp himports) hrule hwritten
    hcommands hunquoted hdone

end Grammar

end GrammarCompiler
