import GrammarCompiler.Proofs.Grammar.Built
import GrammarCompiler.Proofs.Network.Decisions

/-!
# Well-formed networks

What the analyses of a network rely on without a check: rules stand where their numbers say, all
states that are named exist, calls and returns belong together, and decisions are numbered densely
(`WellFormed`). The network of every grammar is well-formed (`wellFormed_ofGrammar`).
-/

namespace GrammarCompiler

namespace Network

/-! ## Decisions of a parser -/

/-- Whether at least two ways lead on from a state. -/
def Forks (network : Network) (id : Nat) : Prop :=
  ∃ reluctant ts, network.ways? id = some (reluctant, ts) ∧ 2 ≤ ts.length

section Forks

variable {network : Network} {scope : Scope}

theorem Chosen.forks {token : Nat} {site : DecisionSite} {parts : List Handle} {whole : Handle}
    {made : List Made} (h : Chosen network token site parts whole made) (hne : parts ≠ []) :
    ∀ m ∈ made, network.Forks m.2 := by
  cases h with
  | alone => nofun
  | among hone hways _ =>
      intro m hm
      obtain rfl := List.mem_singleton.mp hm
      have hpos := List.length_pos_iff.mpr hne
      exact ⟨_, _, hways, by rw [toParts, List.length_map]; omega⟩

theorem forks_among {token id : Nat} {site : DecisionSite} {parts : List Handle} {reluctant : Bool}
    (hways : network.ways? id = some (reluctant, toParts parts)) :
    ∀ m ∈ among token site parts.length id, network.Forks m.2 := by
  intro m hm
  unfold among at hm
  split at hm
  · next hlength =>
      obtain rfl := List.mem_singleton.mp hm
      exact ⟨_, _, hways, by rw [toParts, List.length_map]; omega⟩
  · cases hm

theorem forks_round {id again finish : Nat} {reluctant greedy : Bool}
    (hways : network.ways? id = some (reluctant, toRound again finish greedy)) :
    network.Forks id :=
  ⟨_, _, hways, by cases greedy <;> exact Nat.le_refl _⟩

theorem Under.forks {token first : Nat} {greedy : Bool} {suffix : Suffix} {parts : List Handle}
    {whole : Handle} {made : List Made}
    (h : Under network token first greedy suffix parts whole made) (hne : parts ≠ []) :
    ∀ m ∈ made, network.Forks m.2 := by
  have hpos := List.length_pos_iff.mpr hne
  cases h with
  | optional hways _ =>
      intro m hm
      obtain rfl := List.mem_singleton.mp hm
      exact ⟨_, _, hways, by cases greedy <;> simp [toOptional, toParts] <;> omega⟩
  | star hstart _ _ _ hwhole =>
      intro m hm
      rcases List.mem_append.mp hm with hm | hm
      · exact forks_among hstart m hm
      · obtain rfl := List.mem_singleton.mp hm
        exact forks_round hwhole
  | plus hstart _ _ hback =>
      intro m hm
      rcases List.mem_append.mp hm with hm | hm
      · exact forks_among hstart m hm
      · obtain rfl := List.mem_singleton.mp hm
        exact forks_round hback

theorem PlacedAlts.parts_ne_nil {alts : List Alt} {parts : List Handle} {made : List Made}
    (h : PlacedAlts network scope alts parts made) (hne : alts.isEmpty = false) : parts ≠ [] := by
  rintro rfl
  have hlength := h.length
  cases alts with
  | nil => cases hne
  | cons => cases hlength

mutual
/-- At least two ways lead on from every decision about a formed element. -/
theorem Placed.forks : ∀ {e : Element} {part : Handle} {made : List Made},
    Placed network scope e part made → e.isFormed = true → ∀ m ∈ made, network.Forks m.2
  | _, _, _, .leaf .., _ => nofun
  | _, _, _, .word .., _ => nofun
  | _, _, _, .noWord .., _ => nofun
  | _, _, _, .labeled h, hformed => by
      rw [Element.isFormed] at hformed
      exact h.forks hformed
  | _, _, _, .block halts hchosen, hformed => by
      rw [Element.isFormed, Bool.and_eq_true, Bool.not_eq_true'] at hformed
      intro m hm
      rcases List.mem_append.mp hm with hm | hm
      · exact halts.forks hformed.2 m hm
      · exact hchosen.forks (halts.parts_ne_nil hformed.1) m hm
  | _, _, _, .blockUnder halts hunder, hformed => by
      rw [Element.isFormed, Element.isFormed, Bool.and_eq_true, Bool.not_eq_true'] at hformed
      intro m hm
      rcases List.mem_append.mp hm with hm | hm
      · exact halts.forks hformed.2 m hm
      · exact hunder.forks (halts.parts_ne_nil hformed.1) m hm
  | _, _, _, .under _ h hunder, hformed => by
      rw [Element.isFormed] at hformed
      intro m hm
      rcases List.mem_append.mp hm with hm | hm
      · exact h.forks hformed m hm
      · exact hunder.forks (List.cons_ne_nil _ _) m hm

theorem PlacedRow.forks : ∀ {es : List Element} {parts : List Handle} {made : List Made},
    PlacedRow network scope es parts made → Element.listFormed es = true →
      ∀ m ∈ made, network.Forks m.2
  | _, _, _, .nil, _ => nofun
  | _, _, _, .cons h hrest, hformed => by
      rw [Element.listFormed, Bool.and_eq_true] at hformed
      intro m hm
      rcases List.mem_append.mp hm with hm | hm
      · exact h.forks hformed.1 m hm
      · exact hrest.forks hformed.2 m hm

theorem PlacedAlts.forks : ∀ {alts : List Alt} {parts : List Handle} {made : List Made},
    PlacedAlts network scope alts parts made → Alt.listFormed alts = true →
      ∀ m ∈ made, network.Forks m.2
  | _, _, _, .nil, _ => nofun
  | ⟨_, _, _, _, _⟩ :: _, _, _, .cons h _ hrest, hformed => by
      rw [Alt.listFormed, Alt.isFormed, Bool.and_eq_true] at hformed
      intro m hm
      rcases List.mem_append.mp hm with hm | hm
      · exact h.forks hformed.1 m hm
      · exact hrest.forks hformed.2 m hm
end

theorem Housed.forks {definition : RuleDef} {made : List Made}
    (h : Housed network scope definition made) (hformed : definition.isFormed = true) :
    ∀ m ∈ made, network.Forks m.2 := by
  rw [RuleDef.isFormed, Bool.and_eq_true, Bool.not_eq_true'] at hformed
  cases h with
  | mk _ _ _ halts hchosen _ =>
      intro m hm
      rcases List.mem_append.mp hm with hm | hm
      · exact halts.forks hformed.2 m hm
      · exact hchosen.forks (halts.parts_ne_nil hformed.1) m hm

theorem HousedAll.forks {grammar : Grammar} {vocabulary : Vocabulary} {kind : NetworkKind}
    {rules : List Rule} {made : List Made}
    (h : HousedAll grammar vocabulary kind network rules made)
    (hformed : ∀ rule definition, grammar.definition? rule = some definition →
      definition.isFormed = true) : ∀ m ∈ made, network.Forks m.2 := by
  induction h with
  | nil => nofun
  | undefined _ _ ih => exact ih
  | cons hsome hhoused _ ih =>
      intro m hm
      rcases List.mem_append.mp hm with hm | hm
      · exact hhoused.forks (hformed _ _ hsome) m hm
      · exact ih m hm

end Forks

/-! ## Calls -/

/-- Callers go on at states that grow along the states that call. -/
theorem follows_increase (states : List State) (first : Nat)
    (h : ∀ i s, states[i]? = some s →
      s.calls = [] ∨ ∃ rule, s.calls = [(rule, first + i + 1)]) :
    (∀ follow ∈ (states.flatMap State.calls).map (·.2), first < follow) ∧
      ((states.flatMap State.calls).map (·.2)).Pairwise (· < ·) := by
  induction states generalizing first with
  | nil => exact ⟨nofun, .nil⟩
  | cons s states ih =>
      obtain ⟨hlater, hrest⟩ := ih (first + 1) fun i s' hs' => by
        have hcall := h (i + 1) s' hs'
        rwa [← Nat.add_assoc, Nat.add_right_comm first i 1] at hcall
      rw [List.flatMap_cons, List.map_append]
      rcases h 0 s rfl with hnone | ⟨rule, hone⟩
      · rw [hnone]
        exact ⟨fun follow hfollow => Nat.lt_of_succ_lt (hlater follow hfollow), hrest⟩
      · rw [hone]
        refine ⟨List.forall_mem_cons.mpr ⟨by simp, fun follow hfollow =>
          Nat.lt_of_succ_lt (hlater follow hfollow)⟩, List.pairwise_cons.mpr ⟨?_, hrest⟩⟩
        exact fun follow hfollow => hlater follow hfollow

theorem Neat.nodup_follows {n : Network} (h : n.Neat) : (n.calls.map (·.2)).Nodup := by
  have hincrease := follows_increase n.states.toList 0 fun i s hs => by
    rw [Nat.zero_add]
    exact h.calls i s (Array.getElem?_toList.symm.trans hs)
  rw [calls_eq]
  exact hincrease.2.imp Nat.ne_of_lt

/-- A transition that calls no rule leaves the calls of a network as they are. -/
theorem calls_addTransition (n : Network) (id : Nat) {t : Transition} (ht : t.call? = none) :
    (n.addTransition id t).calls = n.calls := by
  have hcalls : (n.addTransition id t).states.toList.map State.calls =
      n.states.toList.map State.calls := by
    refine List.ext_getElem? fun i => ?_
    rw [List.getElem?_map, List.getElem?_map, Array.getElem?_toList, Array.getElem?_toList]
    show ((n.addTransition id t).state? i).map _ = (n.state? i).map _
    unfold addTransition
    rw [state?_modifyState]
    split
    · cases n.state? i with
      | none => rfl
      | some s => simp [State.calls, ht]
    · rfl
  rw [calls_eq, calls_eq, List.flatMap_def, List.flatMap_def, hcalls]

theorem calls_withReturns (calls : List (Nat × Nat)) (n : Network) :
    (n.withReturns calls).calls = n.calls := by
  induction calls generalizing n with
  | nil => rfl
  | cons call calls ih => exact (ih _).trans (n.calls_addTransition _ rfl)

theorem Neat.withReturns (calls : List (Nat × Nat)) {n : Network} (h : n.Neat) :
    (n.withReturns calls).Neat := by
  induction calls generalizing n with
  | nil => exact h
  | cons call calls ih => exact ih (h.link _ _)

/-! ## Before the rules are built -/

theorem Neat.declareRule {n : Network} (h : n.Neat) (rule : Rule) : (n.declareRule rule).Neat := by
  have hstates := (h.addState .ruleStart rule.index).addState .ruleStop rule.index
  have hrule : (n.addRule rule.name rule.index).Neat :=
    ⟨hstates.ids, hstates.numbered, hstates.calls⟩
  exact hrule.mark n.size fun _ => ⟨rfl, rfl, rfl⟩

theorem neat_blank (vocabulary : Vocabulary) (kind : NetworkKind) :
    (blank vocabulary kind).Neat := by
  cases kind with
  | parser => exact ⟨nofun, fun d id => by simp [blank, empty, state?], nofun⟩
  | lexer =>
      refine ⟨fun id state hstate => ?_, fun d id => ⟨fun hid => ?_, fun ⟨state, hstate, hd⟩ => ?_⟩,
        fun id state hstate => ?_⟩
      · cases id with
        | zero =>
            obtain rfl := Option.some.inj hstate
            rfl
        | succ id => cases hstate
      · cases d with
        | zero =>
            obtain rfl := Option.some.inj hid
            exact ⟨_, rfl, rfl⟩
        | succ d => cases hid
      · cases id with
        | zero =>
            obtain rfl := Option.some.inj hstate
            obtain rfl := Option.some.inj hd
            rfl
        | succ id => cases hstate
      · cases id with
        | zero =>
            obtain rfl := Option.some.inj hstate
            exact .inl rfl
        | succ id => cases hstate

theorem tidy_declared (grammar : Grammar) (vocabulary : Vocabulary) (kind : NetworkKind) :
    (declared grammar vocabulary kind).Tidy := by
  have hneat : ∀ (rules : List Rule) {n : Network}, n.Neat → (rules.foldl declareRule n).Neat := by
    intro rules
    induction rules with
    | nil => exact fun h => h
    | cons rule rules ih => exact fun h => ih (h.declareRule rule)
  refine ⟨hneat _ (neat_blank vocabulary kind), fun id reluctant ts hways hlength => ?_⟩
  obtain ⟨state, hstate, -, heq⟩ := (ways?_eq_some _).mp hways
  obtain ⟨-, hnone⟩ :=
    bare_declareRules (rulesOf grammar kind) (bare_blank vocabulary kind) id state hstate
  rw [(Prod.mk.inj heq).2.symm, hnone] at hlength
  exact absurd hlength (by decide)

theorem stopsBare_declared (grammar : Grammar) (vocabulary : Vocabulary) (kind : NetworkKind) :
    (declared grammar vocabulary kind).StopsBare := fun id state hstate _ =>
  (bare_declareRules (rulesOf grammar kind) (bare_blank vocabulary kind) id state hstate).2

theorem names_declareRules (rules : List Rule) (n : Network) :
    (rules.foldl declareRule n).ruleNames.toList = n.ruleNames.toList ++ rules.map (·.name) := by
  induction rules generalizing n with
  | nil => simp
  | cons rule rules ih =>
      rw [List.foldl_cons, ih,
        show (n.declareRule rule).ruleNames = n.ruleNames.push rule.name from rfl]
      simp

theorem tokensStart_declareRules (rules : List Rule) (n : Network) :
    (rules.foldl declareRule n).tokensStart = n.tokensStart := by
  induction rules generalizing n with
  | nil => rfl
  | cons rule rules ih => exact ih (n.declareRule rule)

/-- The entry of a lexer is the decision between all tokens. -/
theorem entry_listed (grammar : Grammar) (vocabulary : Vocabulary) (kind : NetworkKind) (id : Nat)
    (hid : (declared grammar vocabulary kind).tokensStart = some id) :
    id ∈ (declared grammar vocabulary kind).decisions.toList := by
  unfold declared at hid ⊢
  rw [tokensStart_declareRules] at hid
  rw [(decided_declareRules _ _).1]
  cases kind with
  | parser => cases hid
  | lexer =>
      obtain rfl := Option.some.inj hid
      exact List.mem_singleton_self _

/-! ## The network of a grammar -/

section OfGrammar

variable {grammar : Grammar} {vocabulary : Vocabulary} {kind : NetworkKind}

theorem record_ofGrammar (grammar : Grammar) (vocabulary : Vocabulary) (kind : NetworkKind) :
    (ofGrammar grammar vocabulary kind).record = (built grammar vocabulary kind).record := by
  rw [ofGrammar_eq]
  exact record_returns ..

theorem calls_ofGrammar (grammar : Grammar) (vocabulary : Vocabulary) (kind : NetworkKind) :
    (ofGrammar grammar vocabulary kind).calls = (built grammar vocabulary kind).calls := by
  rw [ofGrammar_eq]
  exact calls_withReturns ..

theorem ways?_ofGrammar (hg : grammar.Numbered) (hv : vocabulary.Fits) (kind : NetworkKind)
    (id : Nat) : (ofGrammar grammar vocabulary kind).ways? id =
      (built grammar vocabulary kind).ways? id := by
  obtain ⟨hbuilt, -⟩ := sound_built hg hv kind
  rw [ofGrammar_eq]
  exact ways?_returns _ hbuilt hbuilt.calls_lt id

/-- Decisions and calls of a complete network. -/
theorem tidy_ofGrammar (hg : grammar.Numbered) (hv : vocabulary.Fits) (kind : NetworkKind) :
    (ofGrammar grammar vocabulary kind).Tidy := by
  obtain ⟨made, hbuilds⟩ := builds_declared hg hv kind
  have hbuilt := hbuilds.tidy (tidy_declared ..) (entry_listed grammar vocabulary kind)
  refine ⟨?_, fun id reluctant ts hways hlength => ?_⟩
  · rw [ofGrammar_eq]
    exact hbuilt.neat.withReturns _
  · rw [ways?_ofGrammar hg hv kind] at hways
    have hdecisions : (ofGrammar grammar vocabulary kind).decisions.toList =
        (built grammar vocabulary kind).decisions.toList :=
      congrArg Record.decisions (record_ofGrammar grammar vocabulary kind)
    rw [hdecisions]
    exact hbuilt.decides id reluctant ts hways hlength

/-- The stop of a rule leads to where its callers go on. -/
theorem stop_ofGrammar (hg : grammar.Numbered) (hv : vocabulary.Fits) (kind : NetworkKind)
    {rule stop : Nat} (hstop : (ofGrammar grammar vocabulary kind).ruleStops[rule]? = some stop) :
    ∃ state, (ofGrammar grammar vocabulary kind).state? stop = some state ∧ state.rule = rule ∧
      state.kind = .ruleStop ∧ state.transitions =
        ((ofGrammar grammar vocabulary kind).calls.filter (·.1 = rule)).map (.epsilon ·.2) := by
  obtain ⟨hbuilt, -, hbare⟩ := sound_built hg hv kind
  rw [show (ofGrammar grammar vocabulary kind).ruleStops = _ from
    congrArg Record.stops (record_ofGrammar grammar vocabulary kind)] at hstop
  obtain ⟨state, hstate, hrule, hkind⟩ := hbuilt.stops rule stop hstop
  have hstop : (built grammar vocabulary kind).ruleStops[rule]? = some stop := hstop
  have hcalled : ∀ call ∈ (built grammar vocabulary kind).calls,
      Decidable.decide ((built grammar vocabulary kind).ruleStops[call.1]? = some stop) =
        Decidable.decide (call.1 = rule) := by
    intro call _
    refine decide_eq_decide.mpr ⟨fun h => ?_, fun h => h ▸ hstop⟩
    obtain ⟨state', hstate', hrule', -⟩ := hbuilt.stops call.1 stop h
    rw [hstate, Option.some.injEq] at hstate'
    rw [← hrule', ← hstate', hrule]
  have hfinal := state?_withReturns (built grammar vocabulary kind).calls
    (hbuilt.paired ▸ hbuilt.calls_lt) stop
  rw [hstate, ← ofGrammar_eq, List.filter_congr hcalled,
    Option.map_some, hbare (stopsBare_declared grammar vocabulary kind) stop state hstate hkind]
    at hfinal
  refine ⟨_, hfinal, hrule, hkind, ?_⟩
  rw [calls_ofGrammar]
  rfl

/-- At least two ways lead on from every decision of a parser. -/
theorem forks_ofGrammar (hg : grammar.Built) (hv : vocabulary.Fits) {id : Nat}
    (hid : id ∈ (ofGrammar grammar vocabulary .parser).decisions.toList) :
    (ofGrammar grammar vocabulary .parser).Forks id := by
  obtain ⟨made, hhoused, hrecord⟩ := housed_ofGrammar hg.steady.numbered hv .parser
  have hdecisions := congrArg Record.decisions hrecord
  rw [decisions_foldl_file] at hdecisions
  rw [show (ofGrammar grammar vocabulary .parser).decisions.toList = made.map (·.2) from
    hdecisions] at hid
  obtain ⟨m, hm, rfl⟩ := List.mem_map.mp hid
  exact hhoused.forks (fun rule definition hdefinition =>
    hg.steady.formed definition (List.mem_of_getElem? hdefinition)) m hm

theorem tokensStart_ofGrammar (hg : grammar.Numbered) (hv : vocabulary.Fits) (kind : NetworkKind) :
    (ofGrammar grammar vocabulary kind).tokensStart = (blank vocabulary kind).tokensStart := by
  obtain ⟨hbuilt, hsame, -⟩ := sound_built hg hv kind
  rw [ofGrammar_eq]
  exact (hbuilt.addReturns.2.tokensStart.trans hsame.tokensStart).trans
    (tokensStart_declareRules ..)

/-- The ways in lead to the rules that are no helpers. -/
theorem map_some_waysIn {network : Network} {rules : List Rule}
    (h : ∀ rule ∈ rules, (grammar.definition? rule).isSome ∧
      rule.index < network.ruleStarts.size) :
    (waysIn grammar network rules).map some = (rules.filter (!·.isFragment)).map
      fun rule : Rule => (network.ruleStarts[rule.index]?).map Transition.epsilon := by
  unfold waysIn
  rw [List.filter_eq_self.mpr fun rule hrule => (h rule hrule).1]
  induction rules with
  | nil => rfl
  | cons rule rules ih =>
      obtain ⟨⟨-, hlt⟩, hrest⟩ := List.forall_mem_cons.mp h
      rw [List.flatMap_cons, List.map_append, ih hrest, wayIn, Array.getElem?_eq_getElem hlt]
      cases hfragment : rule.isFragment with
      | true => simp [hfragment]
      | false => simp [hfragment, hlt]

/-- The entry of a lexer leads to the rules that are no helpers. -/
theorem entry_ofGrammar (hg : grammar.Built) (hv : vocabulary.Fits) :
    ∃ id state, (ofGrammar grammar vocabulary .lexer).tokensStart = some id ∧
      (ofGrammar grammar vocabulary .lexer).state? id = some state ∧ state.kind = .tokensStart ∧
      state.transitions.map some = (grammar.lexerRules.filter (!·.isFragment)).map
        fun rule : Rule => ((ofGrammar grammar vocabulary .lexer).ruleStarts[rule.index]?).map
          .epsilon := by
  have hnumbered := hg.steady.numbered
  obtain ⟨hdeclared, -⟩ := sound_declared hnumbered vocabulary .lexer
  obtain ⟨hsound, -⟩ := sound_ofGrammar hnumbered hv .lexer
  obtain ⟨made, hbuilds⟩ := builds_declared hnumbered hv .lexer
  have htokens : (declared grammar vocabulary .lexer).tokensStart = some 0 :=
    tokensStart_declareRules ..
  obtain ⟨rule, state, hstate, -, hkind⟩ := hdeclared.entry 0 htokens
  obtain ⟨hgreedy, hnone⟩ :=
    bare_declareRules grammar.lexerRules (bare_blank vocabulary .lexer) 0 state hstate
  have hways := hbuilds.entry 0 [] htokens ((ways?_eq_some _).mpr
    ⟨state, hstate, by rw [hkind]; decide, by rw [hgreedy, hnone]⟩)
  rw [List.nil_append, ← ways?_ofGrammar hnumbered hv] at hways
  obtain ⟨state', hstate', -, heq⟩ := (ways?_eq_some _).mp hways
  have hstart : (ofGrammar grammar vocabulary .lexer).tokensStart = some 0 :=
    tokensStart_ofGrammar hnumbered hv .lexer
  obtain ⟨rule', state'', hstate'', -, hkind''⟩ := hsound.entry 0 hstart
  rw [hstate', Option.some.injEq] at hstate''
  refine ⟨0, state', hstart, hstate', hstate'' ▸ hkind'', ?_⟩
  have hstarts : (ofGrammar grammar vocabulary .lexer).ruleStarts =
      (declared grammar vocabulary .lexer).ruleStarts :=
    (congrArg Record.starts (record_ofGrammar ..)).trans (starts_of_record hbuilds.record)
  rw [(Prod.mk.inj heq).2, hstarts]
  refine map_some_waysIn fun rule hrule =>
    ⟨?_, index_lt_declared hnumbered vocabulary .lexer rule hrule⟩
  obtain ⟨definition, hdefinition⟩ := hg.steady.definition (List.mem_filter.mp hrule).1
  rw [hdefinition]
  rfl

end OfGrammar

/-- What the analyses of a network rely on. The calls of a network are listed as the rules that are
called and the states where the callers go on. -/
structure WellFormed (network : Network) (rules : List Rule) : Prop where
  ids : ∀ id state, network.state? id = some state → state.id = id
  indexes : ∀ (i : Nat) (rule : Rule), rules[i]? = some rule → rule.index = i
  names : network.ruleNames.toList = rules.map (·.name)
  starts_size : network.ruleStarts.size = rules.length
  stops_size : network.ruleStops.size = rules.length
  starts : ∀ rule start : Nat, network.ruleStarts[rule]? = some start →
    ∃ state, network.state? start = some state ∧ state.rule = rule ∧ state.kind = .ruleStart ∧
      state.endState = network.ruleStops[rule]?
  /-- From its stop a rule goes on wherever a caller does, and nowhere else. -/
  stops : ∀ rule stop : Nat, network.ruleStops[rule]? = some stop →
    ∃ state, network.state? stop = some state ∧ state.rule = rule ∧ state.kind = .ruleStop ∧
      state.transitions = (network.calls.filter (·.1 = rule)).map (.epsilon ·.2)
  /-- There are no other stops and no other entries. -/
  borders : ∀ id state, network.state? id = some state →
    (state.kind = .ruleStop → network.ruleStops[state.rule]? = some id) ∧
      (state.kind = .tokensStart → network.tokensStart = some id)
  valid : ∀ id state, network.state? id = some state → ∀ t ∈ state.transitions,
    t.target < network.size ∧ ∀ call ∈ t.call?, call.2 < network.size
  calls : ∀ id state, network.state? id = some state → ∀ target callee precedence follow,
    .rule target callee precedence follow ∈ state.transitions →
      network.ruleStarts[callee]? = some target
  follows : (network.calls.map (·.2)).Nodup
  /-- Decisions have the numbers of their places. -/
  numbered : ∀ d id : Nat, network.decisions[d]? = some id ↔
    ∃ state, network.state? id = some state ∧ state.decision = some d
  forks : ∀ id state, network.state? id = some state → state.kind ≠ .ruleStop →
    2 ≤ state.transitions.length → state.decision.isSome
  choices : network.kind = .parser → ∀ id state, network.state? id = some state →
    state.decision.isSome → 2 ≤ state.transitions.length
  /-- The entry of a lexer leads to the rules that are no helpers. -/
  entry : network.kind = .lexer → ∃ id state, network.tokensStart = some id ∧
    network.state? id = some state ∧ state.kind = .tokensStart ∧
      state.transitions.map some = (rules.filter (!·.isFragment)).map
        fun rule : Rule => (network.ruleStarts[rule.index]?).map Transition.epsilon
  noEntry : network.kind = .parser → network.tokensStart = none
  /-- All other ways stay in their rule. -/
  stays : ∀ id state, network.state? id = some state → state.kind ≠ .ruleStop →
    state.kind ≠ .tokensStart → ∀ t ∈ state.transitions, network.Stays state.rule t

section OfGrammar

variable {grammar : Grammar} {vocabulary : Vocabulary}

theorem Neat.isSome_decision {n : Network} (h : n.Neat) {id : Nat} {state : State}
    (hstate : n.state? id = some state) :
    state.decision.isSome ↔ id ∈ n.decisions.toList := by
  rw [Option.isSome_iff_exists, List.mem_iff_getElem?]
  refine exists_congr fun d => ?_
  rw [Array.getElem?_toList, h.numbered]
  exact ⟨fun hd => ⟨state, hstate, hd⟩, fun ⟨state', hstate', hd⟩ =>
    Option.some.inj (hstate.symm.trans hstate') ▸ hd⟩

/-- States that a network names exist. -/
theorem valid_ofGrammar (hg : grammar.Built) (hv : vocabulary.Fits) (kind : NetworkKind) {id : Nat}
    {state : State} (hstate : (ofGrammar grammar vocabulary kind).state? id = some state)
    {t : Transition} (ht : t ∈ state.transitions) :
    t.target < (ofGrammar grammar vocabulary kind).size ∧
      ∀ call ∈ t.call?, call.2 < (ofGrammar grammar vocabulary kind).size := by
  have hnumbered := hg.steady.numbered
  obtain ⟨hsound, -⟩ := sound_ofGrammar hnumbered hv kind
  have hborders := hsound.borders id state hstate
  by_cases hstop : state.kind = .ruleStop
  · obtain ⟨state', hstate', -, -, hts⟩ := stop_ofGrammar hnumbered hv kind (hborders.1 hstop)
    rw [hstate, Option.some.injEq] at hstate'
    rw [hstate', hts] at ht
    obtain ⟨call, hcall, rfl⟩ := List.mem_map.mp ht
    obtain ⟨_, _, _, _, hfollow⟩ := hsound.stays_of_call (List.mem_filter.mp hcall).1
    exact ⟨size_le_of_hasRule hfollow, nofun⟩
  by_cases hentry : state.kind = .tokensStart
  · cases kind with
    | parser =>
        have hnone : (ofGrammar grammar vocabulary .parser).tokensStart = none :=
          tokensStart_ofGrammar hnumbered hv .parser
        have hsome := hborders.2 hentry
        rw [hnone] at hsome
        cases hsome
    | lexer =>
        obtain ⟨id', state', hid', hstate', -, hts⟩ := entry_ofGrammar hg hv
        obtain rfl : id' = id := Option.some.inj (hid'.symm.trans (hborders.2 hentry))
        rw [hstate, Option.some.injEq] at hstate'
        obtain ⟨rule, -, hrule⟩ :=
          List.mem_map.mp (hts ▸ List.mem_map_of_mem (f := some) (hstate' ▸ ht))
        obtain ⟨start, hstart, rfl⟩ := Option.map_eq_some_iff.mp hrule
        exact ⟨size_le_of_hasRule (hsound.ruled.starts rule.index start hstart), nofun⟩
  · have hstays := hsound.stays id state hstate
      (StateKind.isBorder_eq_false.mpr ⟨hstop, hentry⟩) t ht
    cases t with
    | rule target callee precedence follow =>
        refine ⟨size_le_of_hasRule (hsound.ruled.starts callee target hstays.1),
          fun call hcall => ?_⟩
        obtain rfl := Option.some.inj hcall
        exact size_le_of_hasRule hstays.2
    | _ => exact ⟨size_le_of_hasRule hstays, nofun⟩

/-- The network of a grammar is well-formed. -/
theorem wellFormed_ofGrammar (hg : grammar.Built) (hv : vocabulary.Fits) (kind : NetworkKind) :
    (ofGrammar grammar vocabulary kind).WellFormed (rulesOf grammar kind) := by
  have hnumbered := hg.steady.numbered
  obtain ⟨hsound, -, hkind, hsize⟩ := sound_ofGrammar hnumbered hv kind
  obtain ⟨hbuilt, hsame, -⟩ := sound_built hnumbered hv kind
  have htidy := tidy_ofGrammar hnumbered hv kind
  have hall := hsame.trans hbuilt.addReturns.2
  rw [← ofGrammar_eq] at hall
  refine
    { ids := htidy.neat.ids
      indexes := rulesOf_index hnumbered kind
      names := ?_
      starts_size := hsize
      stops_size := hsound.paired ▸ hsize
      starts := fun rule start hstart => ?_
      stops := fun rule stop hstop => stop_ofGrammar hnumbered hv kind hstop
      borders := hsound.borders
      valid := fun id state hstate t ht => valid_ofGrammar hg hv kind hstate ht
      calls := fun id state hstate target callee precedence follow ht =>
        hsound.ruled.start_of_call ⟨state, hstate, fun hstop => ?_, ht⟩
      follows := htidy.neat.nodup_follows
      numbered := htidy.neat.numbered
      forks := fun id state hstate hstop hlength => ?_
      choices := fun hparser id state hstate hdecision => ?_
      entry := fun hlexer => ?_
      noEntry := fun hparser => ?_
      stays := fun id state hstate hstop hentry =>
        hsound.stays id state hstate (StateKind.isBorder_eq_false.mpr ⟨hstop, hentry⟩) }
  · rw [hall.names, declared, names_declareRules]
    cases kind <;> rfl
  · obtain ⟨state, hstate, hrule, hstart'⟩ := hsound.starts rule start hstart
    obtain ⟨state', hstate', hend⟩ := hsound.ends rule start hstart
    rw [hstate, Option.some.injEq] at hstate'
    exact ⟨state, hstate, hrule, hstart', hstate' ▸ hend⟩
  · obtain ⟨follow, hepsilon⟩ := hsound.exits id state hstate (by rw [hstop]; rfl) _ ht
    cases hepsilon
  · exact (htidy.neat.isSome_decision hstate).mpr
      (htidy.decides id _ _ ((ways?_eq_some _).mpr ⟨state, hstate, hstop, rfl⟩) hlength)
  · obtain rfl := hkind.symm.trans hparser
    obtain ⟨reluctant, ts, hways, hlength⟩ :=
      forks_ofGrammar hg hv ((htidy.neat.isSome_decision hstate).mp hdecision)
    obtain ⟨state', hstate', -, heq⟩ := (ways?_eq_some _).mp hways
    rw [hstate, Option.some.injEq] at hstate'
    rw [hstate', (Prod.mk.inj heq).2]
    exact hlength
  · obtain rfl := hkind.symm.trans hlexer
    exact entry_ofGrammar hg hv
  · obtain rfl := hkind.symm.trans hparser
    exact tokensStart_ofGrammar hnumbered hv .parser

/-- Both networks of a grammar whose loops and optional blocks are greedy and reluctant, with a
helper rule and a rule that is called twice. -/
theorem wellFormed_ofGrammar_loops :
    ∃ (grammar : Grammar) (report : Report),
      Grammar.gather .empty "T.g"
        "grammar T; s : (a | B)*? a+; a : (B C?)?? D |; B : 'b' F*; fragment F : ~('x' | 'y');" =
          (some grammar, report) ∧
      let vocabulary := (Vocabulary.ofGrammar grammar).1
      vocabulary.Fits ∧ (ofGrammar grammar vocabulary .parser).decisions.size = 6 ∧
        (ofGrammar grammar vocabulary .parser).calls = [(1, 5), (1, 14)] ∧
        (ofGrammar grammar vocabulary .lexer).calls = [(1, 8)] ∧
        ∀ kind, (ofGrammar grammar vocabulary kind).WellFormed (rulesOf grammar kind) := by
  have hgood : (Grammar.gather .empty "T.g"
      "grammar T; s : (a | B)*? a+; a : (B C?)?? D |; B : 'b' F*; fragment F : ~('x' | 'y');"
      ).1.any fun grammar =>
          let vocabulary := (Vocabulary.ofGrammar grammar).1
          vocabulary.nextType ≤ Text.maxInt32 &&
            (ofGrammar grammar vocabulary .parser).decisions.size == 6 &&
            (ofGrammar grammar vocabulary .parser).calls == [(1, 5), (1, 14)] &&
            (ofGrammar grammar vocabulary .lexer).calls == [(1, 8)] := by
    decide +kernel
  obtain ⟨grammar, hgrammar, hgood⟩ := (Option.any_eq_true _ _).mp hgood
  simp only [Bool.and_eq_true, decide_eq_true_eq, beq_iff_eq] at hgood
  obtain ⟨⟨⟨hsize, hdecisions⟩, hparser⟩, hlexer⟩ := hgood
  have hfits := ((Vocabulary.below_ofGrammar grammar).fits hsize).1
  obtain ⟨report, hgather⟩ : ∃ report,
      Grammar.gather .empty "T.g"
        "grammar T; s : (a | B)*? a+; a : (B C?)?? D |; B : 'b' F*; fragment F : ~('x' | 'y');" =
          (some grammar, report) :=
    ⟨_, Prod.ext hgrammar rfl⟩
  exact ⟨grammar, report, hgather, hfits, hdecisions, hparser, hlexer, fun kind =>
    wellFormed_ofGrammar (.gathered hgather) hfits kind⟩

end OfGrammar

end Network

end GrammarCompiler
