import GrammarCompiler.Proofs.Network.Assembly
import GrammarCompiler.Proofs.Network.Placement

/-!
# Where the rules of a grammar are

In the network of a grammar every rule that is defined has its place between its start and its
stop (`Housed`). A rule is complete as soon as it has been built: what follows is built behind it,
and returns only leave stops.
-/

namespace GrammarCompiler

namespace Network

/-- What the states of a rule are built for. -/
def scopeOf (grammar : Grammar) (vocabulary : Vocabulary) (kind : NetworkKind) (rule : Rule)
    (definition : RuleDef) : Scope where
  grammar := grammar
  vocabulary := vocabulary
  kind := kind
  rule := rule.index
  operatorLoop := operatorLoop? rule definition

/-- A rule has its place between its start and its stop. -/
inductive Housed (network : Network) (scope : Scope) (definition : RuleDef) : List Made → Prop
  | mk {start stop : Nat} {body : Handle} {parts : List Handle} {made made' : List Made} :
    network.ruleStarts[scope.rule]? = some start → network.ruleStops[scope.rule]? = some stop →
    network.ways? start = some (false, [.epsilon body.left]) →
    PlacedAlts network scope definition.alts parts made →
    Chosen network definition.block.extent.start .ruleBlock parts body made' →
    network.ways? body.right = some (false, [.epsilon stop]) →
      Housed network scope definition (made ++ made')

section Rules

variable (grammar : Grammar) (vocabulary : Vocabulary) (kind : NetworkKind)

/-- The rules that are defined have their places. The decisions for them are listed in the order
in which they were made. -/
inductive HousedAll (network : Network) : List Rule → List Made → Prop
  | nil : HousedAll network [] []
  | undefined {rule : Rule} {rules : List Rule} {made : List Made} :
    grammar.definition? rule = none → HousedAll network rules made →
      HousedAll network (rule :: rules) made
  | cons {rule : Rule} {rules : List Rule} {definition : RuleDef} {made made' : List Made} :
    grammar.definition? rule = some definition →
    Housed network (scopeOf grammar vocabulary kind rule definition) definition made →
    HousedAll network rules made' → HousedAll network (rule :: rules) (made ++ made')

end Rules

section Build

variable {grammar : Grammar} {vocabulary : Vocabulary} {kind : NetworkKind}

theorem HousedAll.housed {network : Network} {rules : List Rule} {made : List Made}
    (h : HousedAll grammar vocabulary kind network rules made) {rule : Rule} (hrule : rule ∈ rules)
    {definition : RuleDef} (hdefinition : grammar.definition? rule = some definition) :
    ∃ made', Housed network (scopeOf grammar vocabulary kind rule definition) definition made' := by
  induction h with
  | nil => cases hrule
  | undefined hnone _ ih =>
      rcases List.mem_cons.mp hrule with rfl | hrule
      · rw [hnone] at hdefinition
        cases hdefinition
      · exact ih hrule
  | cons hsome hhoused _ ih =>
      rcases List.mem_cons.mp hrule with rfl | hrule
      · rw [hsome, Option.some.injEq] at hdefinition
        subst hdefinition
        exact ⟨_, hhoused⟩
      · exact ih hrule

/-- The way from the entry of a lexer to the start of a rule. None leads to a helper rule. -/
def wayIn (isFragment : Bool) (start : Nat) : List Transition :=
  if isFragment then [] else [.epsilon start]

/-- A rule has been built: nothing has changed but its start and the entry of a lexer, and it is
housed wherever its states stay as they are. -/
structure BuildsRule (before after : Network) (isFragment : Bool) (start : Nat) (made : List Made)
    (housed : Network → Prop) : Prop where
  size_le : before.size ≤ after.size
  record : after.record = made.foldl file before.record
  tidy : before.Tidy → (∀ id, before.tokensStart = some id → id ∈ before.decisions.toList) →
    after.Tidy
  entry : ∀ id ts, before.tokensStart = some id → before.ways? id = some (false, ts) →
    after.ways? id = some (false, ts ++ wayIn isFragment start)
  below : ∀ id < before.size, id ≠ start → before.tokensStart ≠ some id →
    after.ways? id = before.ways? id
  housed : ∀ final : Network, final.ruleStarts = after.ruleStarts →
    final.ruleStops = after.ruleStops →
    (∀ id < after.size, id = start ∨ before.size ≤ id → final.ways? id = after.ways? id) →
      housed final

/-- The body of a rule has been put behind a network; now it is tied to its start and its stop. -/
theorem BuildsRule.of_body {n n' : Network} {body : Handle} {made : List Made}
    {placed : Network → Prop} (hbody : n.Puts n' [body] made placed) {start stop : Nat}
    (hlt : start < n.size) (hentry : ∀ id, n.tokensStart = some id → id < n.size ∧ id ≠ start)
    (hfresh : n.ways? start = some (false, [])) {isFragment : Bool} {after : Network}
    (hafter : ((n.tokensStart = none ∨ isFragment = true) ∧
        after = (n'.link start body.left).link body.right stop) ∨
      ∃ entry, n.tokensStart = some entry ∧ isFragment = false ∧
        after = ((n'.link start body.left).link body.right stop).link entry start) :
    BuildsRule n after isFragment start made fun final => placed final ∧
      final.ways? start = some (false, [.epsilon body.left]) ∧
      final.ways? body.right = some (false, [.epsilon stop]) := by
  have hright := hbody.loose.ends body (List.mem_singleton.mpr rfl)
  have hge := hbody.behind body (List.mem_singleton.mpr rfl)
  have hne : start ≠ body.right := Nat.ne_of_lt (Nat.lt_of_lt_of_le hlt hge)
  -- the entry of a lexer is none of the states in question
  have hties : ∀ id, n.tokensStart ≠ some id → after.ways? id =
      ((n'.link start body.left).link body.right stop).ways? id := by
    intro id hid
    rcases hafter with ⟨-, rfl⟩ | ⟨entry, he, -, rfl⟩
    · rfl
    · exact ways?_link_ne _ fun heq => hid (heq ▸ he)
  have hnot : ∀ id, id = start ∨ n.size ≤ id → n.tokensStart ≠ some id := by
    rintro id hwhere he
    obtain ⟨hidlt, hidne⟩ := hentry id he
    rcases hwhere with rfl | hidge
    · exact hidne rfl
    · exact absurd hidlt (Nat.not_lt.mpr hidge)
  have hsize : after.size = n'.size := by
    rcases hafter with ⟨-, rfl⟩ | ⟨entry, -, -, rfl⟩
    · rw [size_link, size_link]
    · rw [size_link, size_link, size_link]
  have hrecord : after.record = n'.record := by
    rcases hafter with ⟨-, rfl⟩ | ⟨entry, -, -, rfl⟩ <;> rfl
  have htied : n'.Tidy → ((n'.link start body.left).link body.right stop).Tidy := fun h =>
    (h.link ((hbody.below start hlt).trans hfresh) body.left).link
      ((ways?_link_ne _ hne).trans hright) stop
  -- the entry itself
  have hway : ∀ id, n.tokensStart = some id →
      ((n'.link start body.left).link body.right stop).ways? id = n.ways? id := by
    intro id hid
    obtain ⟨hidlt, hidne⟩ := hentry id hid
    rw [ways?_link_ne _ (Nat.ne_of_gt (Nat.lt_of_lt_of_le hidlt hge)),
      ways?_link_ne _ (Ne.symm hidne), hbody.below id hidlt]
  have hstarts : after.ruleStarts = n'.ruleStarts := congrArg Record.starts hrecord
  refine ⟨by rw [hsize]; exact hbody.size_le, by rw [hrecord]; exact hbody.record,
    fun htidy hlisted => ?_, fun id ts hid hways => ?_, fun id hid hstart he => ?_,
    fun final hfstarts _ hfinal => ⟨?_, ?_, ?_⟩⟩
  · have hbuilt := htied (hbody.tidy htidy)
    rcases hafter with ⟨-, rfl⟩ | ⟨entry, he, -, rfl⟩
    · exact hbuilt
    · have hmem := (mem_decisions_of_record hbody.record).mpr (.inl (hlisted entry he))
      exact hbuilt.linkDecision hmem
        start
  · rcases hafter with ⟨hnone | rfl, rfl⟩ | ⟨entry, he, rfl, rfl⟩
    · rw [hid] at hnone
      cases hnone
    · rw [hway id hid, hways, wayIn, if_pos rfl, List.append_nil]
    · obtain rfl : entry = id := Option.some.inj (he.symm.trans hid)
      exact ways?_link_self _ start ((hway entry hid).trans hways)
  · rw [hties id he, ways?_link_ne _ (Nat.ne_of_gt (Nat.lt_of_lt_of_le hid hge)),
      ways?_link_ne _ (Ne.symm hstart), hbody.below id hid]
  · refine hbody.placed final ⟨hfstarts.trans hstarts, fun id hlo hid hne' => ?_⟩
    rw [hfinal id (by rw [hsize]; exact hid) (Or.inr hlo), hties id (hnot id (Or.inr hlo)),
      ways?_link_ne _ fun heq => hne' (List.mem_singleton.mpr heq.symm),
      ways?_link_ne _ (Nat.ne_of_lt (Nat.lt_of_lt_of_le hlt hlo))]
  · rw [hfinal start (by rw [hsize]; exact Nat.lt_of_lt_of_le hlt hbody.size_le) (Or.inl rfl),
      hties start (hnot start (Or.inl rfl)), ways?_link_ne _ (Ne.symm hne)]
    exact ways?_link_first _ _ ((hbody.below start hlt).trans hfresh)
  · rw [hfinal body.right (by rw [hsize]; exact n'.lt_of_ways? hright) (Or.inr hge),
      hties body.right (hnot body.right (Or.inr hge))]
    exact ways?_link_first _ _ ((ways?_link_ne _ hne).trans hright)

theorem builds_rule {b : Builder} (h : b.network.Sound)
    (hcalls : ∀ name callee, grammar.rule? name = some callee →
      callee.isLexerRule = (kind == .lexer) → callee.index < b.network.ruleStarts.size)
    {rule : Rule} (definition : RuleDef) {start : Nat}
    (hstart : b.network.ruleStarts[rule.index]? = some start)
    (hfresh : b.network.ways? start = some (false, [])) {after : Network}
    (hafter : after = ((buildRule grammar vocabulary kind rule definition).run b).2.network)
    (hsame : SameRules b.network after) :
    ∃ made, BuildsRule b.network after rule.isFragment start made fun final =>
      Housed final (scopeOf grammar vocabulary kind rule definition) definition made := by
  unfold buildRule at hafter
  simp only [run_bind] at hafter
  generalize hscope : (Scope.mk grammar vocabulary kind rule.index
    (operatorLoop? rule definition)) = scope at hafter
  have hcalls : CallsKnown scope b.network := by
    subst hscope
    intro name callee hname hkind
    exact ⟨_, Array.getElem?_eq_getElem (hcalls name callee hname hkind)⟩
  have hrule : rule.index < b.network.ruleStarts.size := (Array.getElem?_eq_some_iff.mp hstart).1
  obtain ⟨stop, hstop⟩ : ∃ stop : Nat, b.network.ruleStops[rule.index]? = some stop :=
    ⟨_, Array.getElem?_eq_getElem (by rw [← h.paired]; exact hrule)⟩
  obtain ⟨made, hparts⟩ := @puts_altParts scope definition.alts b hcalls
  obtain ⟨made', hbody⟩ :=
    puts_choice scope hparts definition.block.extent.start .ruleBlock
  generalize hbuilt : (Build.choice scope definition.block.extent.start .ruleBlock
    ((altParts scope definition.alts).run b).1).run
    ((altParts scope definition.alts).run b).2 = built at hafter hbody
  obtain ⟨body, b'⟩ := built
  have hget : (get : Build Builder).run b' = (b', b') := rfl
  simp only [hget, Build.link, Build.transition, run_update, network_withNetwork] at hafter
  rw [starts_of_record hbody.record, stops_of_record hbody.record, hstart, hstop] at hafter
  simp only [Option.getD_some] at hafter
  obtain ⟨hstartState, hstartOf, -, hstartKind⟩ := h.starts rule.index start hstart
  -- what the entry of a lexer is linked to
  have hentry : ∀ id, b.network.tokensStart = some id → id < b.network.size ∧ id ≠ start := by
    intro id hid
    obtain ⟨r, state, hstate, -, hkind⟩ := h.entry id hid
    refine ⟨(Array.getElem?_eq_some_iff.mp hstate).1, ?_⟩
    rintro rfl
    rw [hstartOf, Option.some.injEq] at hstate
    rw [← hstate, hstartKind] at hkind
    cases hkind
  have hcases : ((b.network.tokensStart = none ∨ rule.isFragment = true) ∧
        after = (b'.network.link start body.left).link body.right stop) ∨
      ∃ entry, b.network.tokensStart = some entry ∧ rule.isFragment = false ∧
        after = ((b'.network.link start body.left).link body.right stop).link entry start := by
    split at hafter
    · next entry hsome =>
      split at hafter
      · next hfragment => exact .inl ⟨.inr hfragment, hafter⟩
      · next hfragment =>
        refine .inr ⟨entry, ?_, by simpa using hfragment, hafter⟩
        rw [← hsame.tokensStart, hafter]
        exact hsome
    · next hnone =>
      refine .inl ⟨.inl ?_, hafter⟩
      rw [← hsame.tokensStart, hafter]
      exact hnone
  have hbuilds := BuildsRule.of_body hbody (Array.getElem?_eq_some_iff.mp hstartOf).1 hentry hfresh
    hcases
  refine ⟨made ++ made', { hbuilds with housed := fun final hfstarts hfstops hfinal => ?_ }⟩
  obtain ⟨⟨halts, hchosen⟩, hleft, hright⟩ := hbuilds.housed final hfstarts hfstops hfinal
  rw [starts_of_record hbuilds.record] at hfstarts
  rw [stops_of_record hbuilds.record] at hfstops
  subst hscope
  exact .mk (by rw [hfstarts]; exact hstart) (by rw [hfstops]; exact hstop) hleft halts hchosen
    hright

/-- The ways from the entry of a lexer to the starts of rules. -/
def waysIn (grammar : Grammar) (network : Network) (rules : List Rule) : List Transition :=
  (rules.filter fun rule => (grammar.definition? rule).isSome).flatMap fun rule =>
    wayIn rule.isFragment ((network.ruleStarts[rule.index]?).getD 0)

/-- Rules have been built: nothing has changed but their starts and the entry of a lexer, and they
are housed wherever their states stay as they are. -/
structure BuildsRules (grammar : Grammar) (vocabulary : Vocabulary) (kind : NetworkKind)
    (before after : Network) (rules : List Rule) (made : List Made) : Prop where
  size_le : before.size ≤ after.size
  record : after.record = made.foldl file before.record
  tidy : before.Tidy → (∀ id, before.tokensStart = some id → id ∈ before.decisions.toList) →
    after.Tidy
  entry : ∀ id ts, before.tokensStart = some id → before.ways? id = some (false, ts) →
    after.ways? id = some (false, ts ++ waysIn grammar before rules)
  below : ∀ id < before.size, before.tokensStart ≠ some id →
    (∀ rule ∈ rules, before.ruleStarts[rule.index]? ≠ some id) → after.ways? id = before.ways? id
  housed : ∀ final : Network, final.ruleStarts = after.ruleStarts →
    final.ruleStops = after.ruleStops →
    (∀ id, before.tokensStart ≠ some id → final.ways? id = after.ways? id) →
      HousedAll grammar vocabulary kind final rules made

/-- Rules begin in states of their own, and the entry of a lexer is none of them. -/
theorem Sound.start_inj {n : Network} (h : n.Sound) {rule rule' start : Nat}
    (hrule : n.ruleStarts[rule]? = some start) (hrule' : n.ruleStarts[rule']? = some start) :
    rule = rule' :=
  ((h.starts rule start hrule).hasRule (by decide)).eq
    ((h.starts rule' start hrule').hasRule (by decide))

theorem Sound.start_lt {n : Network} (h : n.Sound) {rule start : Nat}
    (hrule : n.ruleStarts[rule]? = some start) : start < n.size :=
  size_le_of_hasRule ((h.starts rule start hrule).hasRule (by decide))

theorem Sound.start_ne_entry {n : Network} (h : n.Sound) {rule start : Nat}
    (hrule : n.ruleStarts[rule]? = some start) : n.tokensStart ≠ some start := by
  intro hentry
  obtain ⟨state, hstate, -, hkind⟩ := h.starts rule start hrule
  obtain ⟨_, state', hstate', -, hkind'⟩ := h.entry start hentry
  rw [hstate, Option.some.injEq] at hstate'
  rw [← hstate', hkind] at hkind'
  cases hkind'

theorem BuildsRule.cons {n n' n'' : Network} {rule : Rule} {rules : List Rule}
    {definition : RuleDef} {start : Nat} {made made' : List Made} (hsound : n.Sound)
    (hdef : grammar.definition? rule = some definition)
    (hstart : n.ruleStarts[rule.index]? = some start) (hsame : SameRules n n')
    (hnew : rule.index ∉ rules.map (·.index))
    (h : BuildsRule n n' rule.isFragment start made fun final =>
      Housed final (scopeOf grammar vocabulary kind rule definition) definition made)
    (h' : BuildsRules grammar vocabulary kind n' n'' rules made') :
    BuildsRules grammar vocabulary kind n n'' (rule :: rules) (made ++ made') := by
  have hstarts : n''.ruleStarts = n'.ruleStarts := starts_of_record h'.record
  refine ⟨Nat.le_trans h.size_le h'.size_le, by rw [h'.record, h.record, List.foldl_append],
    fun htidy hlisted => ?_, fun id ts hid hways => ?_, fun id hid he hnot => ?_,
    fun final hfstarts hfstops hfinal => .cons hdef ?_ ?_⟩
  · refine h'.tidy (h.tidy htidy hlisted) fun id hid => ?_
    rw [hsame.tokensStart] at hid
    exact (mem_decisions_of_record h.record).mpr (.inl (hlisted id hid))
  · rw [h'.entry id _ (hsame.tokensStart.trans hid) (h.entry id ts hid hways), List.append_assoc]
    unfold waysIn
    rw [List.filter_cons_of_pos (by rw [hdef]; rfl), List.flatMap_cons, hsame.starts, hstart]
    rfl
  · obtain ⟨hne, hothers⟩ := List.forall_mem_cons.mp hnot
    rw [h'.below id (Nat.lt_of_lt_of_le hid h.size_le) (by rw [hsame.tokensStart]; exact he)
      (by rw [hsame.starts]; exact hothers)]
    exact h.below id hid (fun heq => hne (heq ▸ hstart)) he
  · refine h.housed final (hfstarts.trans hstarts)
      (hfstops.trans (stops_of_record h'.record)) fun id hid hwhere => ?_
    have hentry : n.tokensStart ≠ some id := by
      rcases hwhere with rfl | hge
      · exact hsound.start_ne_entry hstart
      · intro he
        obtain ⟨_, state, hstate, -⟩ := hsound.entry id he
        exact absurd (Array.getElem?_eq_some_iff.mp hstate).1 (Nat.not_lt.mpr hge)
    rw [hfinal id hentry]
    refine h'.below id hid (by rw [hsame.tokensStart]; exact hentry) fun other hother heq => ?_
    rw [hsame.starts] at heq
    rcases hwhere with rfl | hge
    · exact hnew (List.mem_map.mpr ⟨other, hother, hsound.start_inj heq hstart⟩)
    · exact absurd (hsound.start_lt heq) (Nat.not_lt.mpr hge)
  · exact h'.housed final hfstarts hfstops fun id he =>
      hfinal id (by rw [← hsame.tokensStart]; exact he)

theorem builds_rules (hv : vocabulary.Fits) (rules : List Rule) {b : Builder}
    (h : b.network.Sound)
    (hcalls : ∀ name callee, grammar.rule? name = some callee →
      callee.isLexerRule = (kind == .lexer) → callee.index < b.network.ruleStarts.size)
    (hrules : ∀ rule ∈ rules, rule.index < b.network.ruleStarts.size)
    (hnodup : (rules.map (·.index)).Nodup)
    (hfresh : ∀ rule ∈ rules, ∀ start : Nat, b.network.ruleStarts[rule.index]? = some start →
      b.network.ways? start = some (false, [])) :
    ∃ made, BuildsRules grammar vocabulary kind b.network
      ((buildRules grammar vocabulary kind rules).run b).2.network rules made := by
  induction rules generalizing b with
  | nil =>
      exact ⟨[], Nat.le_refl _, rfl, fun h _ => h,
        fun _ _ _ h => h.trans (by rw [waysIn, List.filter_nil, List.flatMap_nil, List.append_nil]),
        fun _ _ _ _ => rfl, fun _ _ _ _ => .nil⟩
  | cons rule rules ih =>
      obtain ⟨hrule, hrest⟩ := List.forall_mem_cons.mp hrules
      obtain ⟨hfirst, hothers⟩ := List.forall_mem_cons.mp hfresh
      obtain ⟨hnew, hnodup⟩ := List.nodup_cons.mp hnodup
      unfold buildRules
      cases hdef : grammar.definition? rule with
      | none =>
          obtain ⟨made, hbuilds⟩ := ih h hcalls hrest hnodup hothers
          exact ⟨made, { hbuilds with
            entry := fun id ts hid hways => by
              rw [hbuilds.entry id ts hid hways, waysIn, waysIn,
                List.filter_cons_of_neg (by rw [hdef]; exact Bool.false_ne_true)]
            below := fun id hid he hstarts =>
              hbuilds.below id hid he (List.forall_mem_cons.mp hstarts).2
            housed := fun final hs ht hw => .undefined hdef (hbuilds.housed final hs ht hw) }⟩
      | some definition =>
          obtain ⟨hsound, hsame, -⟩ := sound_buildRule hv definition h hcalls hrule rfl
          have hstart : b.network.ruleStarts[rule.index]? =
            some b.network.ruleStarts[rule.index] := Array.getElem?_eq_getElem hrule
          obtain ⟨made, hbuilds⟩ :=
            builds_rule h hcalls definition hstart (hfirst _ hstart) rfl hsame
          obtain ⟨made', hbuilds'⟩ := ih hsound (by rw [hsame.starts]; exact hcalls)
            (by rw [hsame.starts]; exact hrest) hnodup fun other hother start' hstart' => by
              rw [hsame.starts] at hstart'
              rw [hbuilds.below start' (h.start_lt hstart') ?_ (h.start_ne_entry hstart')]
              · exact hothers other hother start' hstart'
              · rintro rfl
                exact hnew (List.mem_map.mpr ⟨other, hother, h.start_inj hstart' hstart⟩)
          exact ⟨made ++ made', hbuilds.cons h hdef hstart hsame hnew hbuilds'⟩

end Build

/-! ## The network of a grammar -/

/-- Before any rule is built, no state leads anywhere. -/
theorem bare_declareRules (rules : List Rule) {n : Network}
    (h : ∀ id state, n.state? id = some state → state.nonGreedy = false ∧ state.transitions = []) :
    ∀ id state, (rules.foldl declareRule n).state? id = some state →
      state.nonGreedy = false ∧ state.transitions = [] := by
  induction rules generalizing n with
  | nil => exact h
  | cons rule rules ih =>
      refine ih fun id state hstate => ?_
      rw [state?_declareRule] at hstate
      split at hstate
      · rw [← Option.some.inj hstate]
        exact ⟨rfl, rfl⟩
      · split at hstate
        · rw [← Option.some.inj hstate]
          exact ⟨rfl, rfl⟩
        · exact h id state hstate

theorem decided_declareRules (rules : List Rule) (n : Network) :
    (rules.foldl declareRule n).decisions = n.decisions ∧
      (rules.foldl declareRule n).sites = n.sites := by
  induction rules generalizing n with
  | nil => exact ⟨rfl, rfl⟩
  | cons rule rules ih => exact ih (n.declareRule rule)

theorem bare_blank (vocabulary : Vocabulary) (kind : NetworkKind) (id : Nat) (state : State)
    (h : (blank vocabulary kind).state? id = some state) :
    state.nonGreedy = false ∧ state.transitions = [] := by
  cases kind with
  | parser => cases h
  | lexer =>
      cases id with
      | zero =>
          rw [← Option.some.inj h]
          exact ⟨rfl, rfl⟩
      | succ id => cases h

theorem ways?_returns (calls : List (Nat × Nat)) {n : Network} (h : n.Sound)
    (hcalls : ∀ call ∈ calls, call.1 < n.ruleStarts.size) (id : Nat) :
    (n.withReturns calls).ways? id = n.ways? id := by
  induction calls generalizing n with
  | nil => rfl
  | cons call calls ih =>
      obtain ⟨hcall, hrest⟩ := List.forall_mem_cons.mp hcalls
      refine (ih (h.addReturn call.2 hcall) hrest).trans ?_
      have hlt : call.1 < n.ruleStops.size := by
        rw [← h.paired]
        exact hcall
      obtain ⟨state, hstate, -, hkind⟩ := h.stops call.1 _ (Array.getElem?_eq_getElem hlt)
      rw [Array.getElem?_eq_getElem hlt, Option.getD_some]
      unfold ways? addTransition
      rw [state?_modifyState]
      split
      · next heq =>
        rw [← heq, hstate]
        simp [Option.filter_some, hkind]
      · rfl

/-- The stop of a rule leads back to where each of its callers goes on, and nothing else changes. -/
theorem state?_withReturns (calls : List (Nat × Nat)) {n : Network}
    (hcalls : ∀ call ∈ calls, call.1 < n.ruleStops.size) (id : Nat) :
    (n.withReturns calls).state? id = (n.state? id).map fun s =>
      { s with transitions := s.transitions ++
          (calls.filter fun call => n.ruleStops[call.1]? = some id).map (.epsilon ·.2) } := by
  induction calls generalizing n with
  | nil => cases hstate : n.state? id <;> simp [withReturns, hstate]
  | cons call calls ih =>
      obtain ⟨hcall, hrest⟩ := List.forall_mem_cons.mp hcalls
      have hstop : n.ruleStops[call.1]? = some n.ruleStops[call.1] :=
        Array.getElem?_eq_getElem hcall
      have hafter : n.withReturns (call :: calls) =
          (n.addTransition n.ruleStops[call.1] (.epsilon call.2)).withReturns calls := by
        show (n.addTransition ((n.ruleStops[call.1]?).getD 0) _).withReturns calls = _
        rw [hstop, Option.getD_some]
      rw [hafter, ih (n := n.addTransition _ _) hrest]
      dsimp only [addTransition]
      rw [state?_modifyState]
      by_cases hid : n.ruleStops[call.1] = id
      · rw [if_pos hid, List.filter_cons_of_pos (by rw [hstop, hid]; exact decide_eq_true rfl)]
        cases n.state? id with
        | none => rfl
        | some s =>
          simp only [Option.map_some, List.map_cons, List.append_assoc, List.singleton_append]
          rfl
      · rw [if_neg hid, List.filter_cons_of_neg (by simp [hstop, hid])]
        rfl

theorem record_returns (calls : List (Nat × Nat)) (n : Network) :
    (n.withReturns calls).record = n.record := by
  induction calls generalizing n with
  | nil => rfl
  | cons call calls ih => exact (ih _).trans rfl

/-- The rules of a kind have numbers of their own. -/
theorem nodup_rulesOf {grammar : Grammar} (hg : grammar.Numbered) (kind : NetworkKind) :
    ((rulesOf grammar kind).map (·.index)).Nodup := by
  rw [List.nodup_iff_getElem?_ne_getElem?]
  intro i j hij hj heq
  rw [List.length_map] at hj
  have hi : i < (rulesOf grammar kind).length := by omega
  rw [List.getElem?_map, List.getElem?_map, List.getElem?_eq_getElem hi,
    List.getElem?_eq_getElem hj, Option.map_some, Option.map_some, Option.some.injEq,
    rulesOf_index hg kind i _ (List.getElem?_eq_getElem hi),
    rulesOf_index hg kind j _ (List.getElem?_eq_getElem hj)] at heq
  omega

theorem record_foldl_file (made : List Made) (record : Record) :
    made.foldl file { made.foldl file record with
      decisions := record.decisions, sites := record.sites } = made.foldl file record := by
  obtain ⟨hstarts, hstops⟩ := rules_foldl_file made record
  dsimp only
  rw [hstarts, hstops]

/-- The rules of a grammar are built behind their starts and stops. -/
theorem builds_declared {grammar : Grammar} (hg : grammar.Numbered) {vocabulary : Vocabulary}
    (hv : vocabulary.Fits) (kind : NetworkKind) :
    ∃ made, BuildsRules grammar vocabulary kind (declared grammar vocabulary kind)
      (built grammar vocabulary kind) (rulesOf grammar kind) made := by
  obtain ⟨hsound, -⟩ := sound_declared hg vocabulary kind
  refine @builds_rules grammar vocabulary kind hv (rulesOf grammar kind)
    ⟨declared grammar vocabulary kind, 0, 0⟩ hsound (callee_lt_declared hg vocabulary kind)
    (index_lt_declared hg vocabulary kind) (nodup_rulesOf hg kind) fun rule _ start hstart => ?_
  obtain ⟨state, hstate, -, hkind⟩ := hsound.starts rule.index start hstart
  obtain ⟨hgreedy, hnone⟩ :=
    bare_declareRules (rulesOf grammar kind) (bare_blank vocabulary kind) start state hstate
  refine (ways?_eq_some _).mpr ⟨state, hstate, by rw [hkind]; decide, ?_⟩
  rw [hgreedy, hnone]

/-- All rules of a grammar have their places in its network. The decisions of the network are
those of its rules, and before them that between all tokens in a lexer. -/
theorem housed_ofGrammar {grammar : Grammar} (hg : grammar.Numbered) {vocabulary : Vocabulary}
    (hv : vocabulary.Fits) (kind : NetworkKind) :
    ∃ made, HousedAll grammar vocabulary kind (ofGrammar grammar vocabulary kind)
        (rulesOf grammar kind) made ∧
      (ofGrammar grammar vocabulary kind).record = made.foldl file
        { (ofGrammar grammar vocabulary kind).record with
          decisions := (blank vocabulary kind).decisions.toList
          sites := (blank vocabulary kind).sites } := by
  obtain ⟨made, hbuilds⟩ := builds_declared hg hv kind
  obtain ⟨hbuilt, -⟩ := sound_built hg hv kind
  have hrecord := record_returns (built grammar vocabulary kind).calls
    (built grammar vocabulary kind)
  rw [← ofGrammar_eq] at hrecord
  refine ⟨made, ?_, ?_⟩
  · refine hbuilds.housed _ (congrArg Record.starts hrecord) (congrArg Record.stops hrecord)
      fun id _ => ?_
    rw [ofGrammar_eq]
    exact ways?_returns _ hbuilt hbuilt.calls_lt id
  · obtain ⟨hdecisions, hsites⟩ :=
      decided_declareRules (rulesOf grammar kind) (blank vocabulary kind)
    have hall : (ofGrammar grammar vocabulary kind).record =
        made.foldl file (declared grammar vocabulary kind).record := hrecord.trans hbuilds.record
    have hfirst : (declared grammar vocabulary kind).record.decisions =
        (blank vocabulary kind).decisions.toList := congrArg Array.toList hdecisions
    rw [hall, ← hfirst, ← (hsites : (declared grammar vocabulary kind).record.sites = _)]
    exact (record_foldl_file made _).symm

/-- The end of a rule leads back to wherever a call of it goes on. -/
theorem returns_ofGrammar {grammar : Grammar} (hg : grammar.Numbered) {vocabulary : Vocabulary}
    (hv : vocabulary.Fits) (kind : NetworkKind) {id start rule follow stop : Nat} {precedence : Int}
    {reluctant : Bool} {ts : List Transition}
    (hways : (ofGrammar grammar vocabulary kind).ways? id = some (reluctant, ts))
    (ht : .rule start rule precedence follow ∈ ts)
    (hstop : (ofGrammar grammar vocabulary kind).ruleStops[rule]? = some stop) :
    ∃ state, (ofGrammar grammar vocabulary kind).state? stop = some state ∧
      .epsilon follow ∈ state.transitions := by
  obtain ⟨hbuilt, -⟩ := sound_built hg hv kind
  rw [ofGrammar_eq] at hways hstop ⊢
  generalize built grammar vocabulary kind = built at hbuilt hways hstop ⊢
  rw [ways?_returns _ hbuilt hbuilt.calls_lt] at hways
  rw [show (built.withReturns built.calls).ruleStops = built.ruleStops from
    congrArg Record.stops (record_returns built.calls built)] at hstop
  obtain ⟨state, hstate, -, heq⟩ := (ways?_eq_some _).mp hways
  obtain ⟨stopState, hstopState, -⟩ := hbuilt.stops rule stop hstop
  have hcall : (rule, follow) ∈ built.calls :=
    List.mem_filterMap.mpr ⟨.rule start rule precedence follow, List.mem_flatMap.mpr ⟨state,
      Array.mem_toList_iff.mpr (Array.mem_of_getElem? hstate), (Prod.mk.inj heq).2 ▸ ht⟩, rfl⟩
  refine ⟨_, (state?_withReturns _ (hbuilt.paired ▸ hbuilt.calls_lt) stop).trans
    (congrArg _ hstopState), ?_⟩
  exact List.mem_append_right _ (List.mem_map.mpr
    ⟨_, List.mem_filter.mpr ⟨hcall, decide_eq_true hstop⟩, rfl⟩)

end Network

end GrammarCompiler
