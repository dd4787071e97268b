import GrammarCompiler.Proofs.Grammar.Numbered
import GrammarCompiler.Proofs.Network.Parts
import GrammarCompiler.Proofs.Network.Search

/-!
# The network of a grammar

Before any rule is built, all of them have a start and a stop. The bodies come one after another,
each behind all states there are, and at last the stops are linked with the places where callers
go on. All of this keeps a network *sound* (`Sound`): rules are where their numbers say, what a
state leads to belongs to its rule, and only such links leave a stop.
-/

namespace GrammarCompiler

open Text (maxInt32)

namespace Network

def HasState (network : Network) (id rule : Nat) (kind : StateKind) : Prop :=
  ∃ state, network.state? id = some state ∧ state.rule = rule ∧ state.kind = kind

/-- What construction takes care of at every step. -/
structure Sound (network : Network) : Prop where
  paired : network.ruleStarts.size = network.ruleStops.size
  named : network.ruleNames.size = network.ruleStarts.size
  starts : ∀ rule start, network.ruleStarts[rule]? = some start →
    network.HasState start rule .ruleStart
  stops : ∀ rule stop, network.ruleStops[rule]? = some stop → network.HasState stop rule .ruleStop
  ends : ∀ rule start : Nat, network.ruleStarts[rule]? = some start →
    ∃ state, network.state? start = some state ∧ state.endState = network.ruleStops[rule]?
  borders : ∀ id state, network.state? id = some state →
    (state.kind = .ruleStop → network.ruleStops[state.rule]? = some id) ∧
      (state.kind = .tokensStart → network.tokensStart = some id)
  stays : ∀ id state, network.state? id = some state → state.kind.isBorder = false →
    ∀ t ∈ state.transitions, network.Stays state.rule t
  exits : ∀ id state, network.state? id = some state → state.kind.isBorder = true →
    ∀ t ∈ state.transitions, ∃ follow, t = .epsilon follow
  labels : ∀ id state, network.state? id = some state → ∀ t ∈ state.transitions, LabelFits t
  entry : ∀ id, network.tokensStart = some id → ∃ rule, network.HasState id rule .tokensStart

section Sound

variable {n n' : Network}

theorem HasState.hasRule {id rule : Nat} {kind : StateKind} (h : n.HasState id rule kind)
    (hkind : kind ≠ .tokensStart) : n.HasRule id rule := by
  obtain ⟨state, hstate, hrule, rfl⟩ := h
  exact ⟨state, hstate, hrule, hkind⟩

theorem Sound.ruled (h : n.Sound) : n.Ruled :=
  ⟨fun rule start hstart => (h.starts rule start hstart).hasRule (by decide), h.stays, h.exits⟩

theorem Stays.mono {rule : Nat} {t : Transition} (h : n.Stays rule t)
    (hstarts : ∀ r start : Nat, n.ruleStarts[r]? = some start → n'.ruleStarts[r]? = some start)
    (hrules : ∀ id rule, n.HasRule id rule → n'.HasRule id rule) : n'.Stays rule t := by
  cases hcall : t.isCall with
  | true =>
      cases t with
      | rule target callee precedence follow => exact ⟨hstarts _ _ h.1, hrules _ _ h.2⟩
      | _ => cases hcall
  | false =>
      rw [stays_of_not_call hcall] at h ⊢
      exact hrules _ _ h

theorem size_le_of_hasRule {id rule : Nat} (h : n.HasRule id rule) : id < n.size := by
  obtain ⟨state, hstate, -⟩ := h
  exact (Array.getElem?_eq_some_iff.mp hstate).1

/-- A part that is built behind all states keeps a network sound. -/
theorem Sound.of_keeps (h : n.Sound) {rule : Nat} (hkeeps : Keeps rule n.size n n') :
    n'.Sound := by
  have hold : ∀ {id state}, n.state? id = some state → n'.state? id = some state := by
    intro id state hstate
    rw [hkeeps.below id (Array.getElem?_eq_some_iff.mp hstate).1]
    exact hstate
  have hstarts := ruleStarts_of_header hkeeps.header_eq
  have hstops : n'.ruleStops = n.ruleStops :=
    congrArg (fun header => header.2.2.2.1) hkeeps.header_eq
  have hrules : ∀ id rule, n.HasRule id rule → n'.HasRule id rule := by
    rintro id rule ⟨state, hstate, hrule⟩
    exact ⟨state, hold hstate, hrule⟩
  have hstates : ∀ id rule kind, n.HasState id rule kind → n'.HasState id rule kind := by
    rintro id rule kind ⟨state, hstate, hrest⟩
    exact ⟨state, hold hstate, hrest⟩
  have hwithin : n'.Within rule n.size := hkeeps.within fun id state hid hstate =>
    absurd (Array.getElem?_eq_some_iff.mp hstate).1 (Nat.not_lt.mpr hid)
  -- a state is one of those before, or it is new
  have hcases : ∀ {id state}, n'.state? id = some state →
      n.state? id = some state ∨ n.size ≤ id := by
    intro id state hstate
    by_cases hid : id < n.size
    · rw [hkeeps.below id hid] at hstate
      exact Or.inl hstate
    · exact Or.inr (Nat.not_lt.mp hid)
  have hrule : ∀ id, n.size ≤ id → id < n'.size → n'.HasRule id rule := by
    intro id hid hlt
    obtain ⟨state, hstate⟩ : ∃ state, n'.state? id = some state :=
      ⟨_, Array.getElem?_eq_getElem hlt⟩
    obtain ⟨hr, hkind, -⟩ := hwithin id _ hid hstate
    exact ⟨_, hstate, hr, (StateKind.isBorder_eq_false.mp hkind).2⟩
  have hentry : n'.tokensStart = n.tokensStart :=
    congrArg (fun header => header.2.2.2.2.2) hkeeps.header_eq
  have hnames : n'.ruleNames = n.ruleNames :=
    congrArg (fun header => header.2.2.2.2.1) hkeeps.header_eq
  refine ⟨by rw [hstarts, hstops]; exact h.paired, by rw [hnames, hstarts]; exact h.named, ?_, ?_,
    ?_, ?_, ?_, ?_, ?_, fun id hid => ?_⟩
  rotate_right
  · obtain ⟨r, hr⟩ := h.entry id (by rw [← hentry]; exact hid)
    exact ⟨r, hstates _ _ _ hr⟩
  · intro r start hstart
    rw [hstarts] at hstart
    exact hstates _ _ _ (h.starts r start hstart)
  · intro r stop hstop
    rw [hstops] at hstop
    exact hstates _ _ _ (h.stops r stop hstop)
  · intro r start hstart
    rw [hstarts] at hstart
    obtain ⟨state, hstate, hend⟩ := h.ends r start hstart
    exact ⟨state, hold hstate, hend.trans (by rw [hstops])⟩
  · intro id state hstate
    rw [hstops, hentry]
    rcases hcases hstate with hbefore | hid
    · exact h.borders id state hbefore
    · obtain ⟨-, hkind, -⟩ := hwithin id state hid hstate
      have hinner := StateKind.isBorder_eq_false.mp hkind
      exact ⟨fun hstop => absurd hstop hinner.1, fun htokens => absurd htokens hinner.2⟩
  · intro id state hstate hkind t ht
    rcases hcases hstate with hbefore | hid
    · exact (h.stays id state hbefore hkind t ht).mono (fun _ _ hstart => hstarts ▸ hstart) hrules
    · obtain ⟨hr, -, hts⟩ := hwithin id state hid hstate
      rw [hr]
      have hstands := (hts t ht).1
      cases t with
      | rule target callee precedence follow =>
          exact ⟨hstands.1, hrule _ hstands.2.1 hstands.2.2⟩
      | _ => exact hrule _ hstands.1 hstands.2
  · intro id state hstate hkind t ht
    rcases hcases hstate with hbefore | hid
    · exact h.exits id state hbefore hkind t ht
    · rw [(hwithin id state hid hstate).2.1] at hkind
      cases hkind
  · intro id state hstate t ht
    rcases hcases hstate with hbefore | hid
    · exact h.labels id state hbefore t ht
    · exact ((hwithin id state hid hstate).2.2 t ht).2

theorem HasState.addTransition {id' rule : Nat} {kind : StateKind}
    (h : n.HasState id' rule kind) {id : Nat} {t : Transition} :
    (n.addTransition id t).HasState id' rule kind := by
  obtain ⟨state, hstate, hrule, hkind⟩ := h
  unfold Network.addTransition HasState
  rw [state?_modifyState]
  split
  · exact ⟨{ state with transitions := state.transitions ++ [t] }, by rw [hstate]; rfl,
      hrule, hkind⟩
  · exact ⟨state, hstate, hrule, hkind⟩

/-- A transition more keeps a network sound if it stays in its rule, or leaves a stop. -/
theorem Sound.addTransition (h : n.Sound) (id : Nat) {t : Transition} (hfits : LabelFits t)
    (hstays : ∀ state, n.state? id = some state → state.kind.isBorder = false →
      n.Stays state.rule t)
    (hexits : ∀ state, n.state? id = some state → state.kind.isBorder = true →
      ∃ follow, t = .epsilon follow) : (n.addTransition id t).Sound := by
  have hnew : ∀ {id' state'}, (n.addTransition id t).state? id' = some state' →
      ∃ state, n.state? id' = some state ∧ state'.rule = state.rule ∧
        state'.kind = state.kind ∧
        ∀ u ∈ state'.transitions, u ∈ state.transitions ∨ (id = id' ∧ u = t) := by
    intro id' state' hstate'
    unfold Network.addTransition at hstate'
    rw [state?_modifyState] at hstate'
    split at hstate'
    · next hid =>
      obtain ⟨state, hstate, rfl⟩ := Option.map_eq_some_iff.mp hstate'
      refine ⟨state, hstate, rfl, rfl, fun u hu => ?_⟩
      rcases List.mem_append.mp hu with hu | hu
      · exact Or.inl hu
      · exact Or.inr ⟨hid, List.mem_singleton.mp hu⟩
    · exact ⟨state', hstate', rfl, rfl, fun u hu => Or.inl hu⟩
  have hstates : ∀ id' rule kind, n.HasState id' rule kind →
      (n.addTransition id t).HasState id' rule kind := fun _ _ _ h => h.addTransition
  have hrules : ∀ id' rule, n.HasRule id' rule → (n.addTransition id t).HasRule id' rule := by
    rintro id' rule ⟨state, hstate, hrule, hkind⟩
    exact (hstates id' rule state.kind ⟨state, hstate, hrule, rfl⟩).hasRule hkind
  refine ⟨h.paired, h.named, fun r s hs => hstates _ _ _ (h.starts r s hs),
    fun r s hs => hstates _ _ _ (h.stops r s hs), fun r s hs => ?_, fun id' state' hstate' => ?_,
    ?_, ?_, ?_, fun id' hid' => ?_⟩
  rotate_right
  · obtain ⟨r, hr⟩ := h.entry id' hid'
    exact ⟨r, hstates _ _ _ hr⟩
  · obtain ⟨state, hstate, hend⟩ := h.ends r s hs
    unfold Network.addTransition
    rw [state?_modifyState]
    split
    · exact ⟨{ state with transitions := state.transitions ++ [t] }, by rw [hstate]; rfl, hend⟩
    · exact ⟨state, hstate, hend⟩
  · obtain ⟨state, hstate, hrule, hkind, -⟩ := hnew hstate'
    rw [hrule, hkind]
    exact h.borders id' state hstate
  · intro id' state' hstate' hkind' u hu
    obtain ⟨state, hstate, hrule, hkind, hts⟩ := hnew hstate'
    rw [hrule]
    rw [hkind] at hkind'
    rcases hts u hu with hu | ⟨rfl, rfl⟩
    · exact (h.stays id' state hstate hkind' u hu).mono (fun _ _ hstart => hstart) hrules
    · exact (hstays state hstate hkind').mono (fun _ _ hstart => hstart) hrules
  · intro id' state' hstate' hkind' u hu
    obtain ⟨state, hstate, -, hkind, hts⟩ := hnew hstate'
    rw [hkind] at hkind'
    rcases hts u hu with hu | ⟨rfl, rfl⟩
    · exact h.exits id' state hstate hkind' u hu
    · exact hexits state hstate hkind'
  · intro id' state' hstate' u hu
    obtain ⟨state, hstate, -, -, hts⟩ := hnew hstate'
    rcases hts u hu with hu | ⟨rfl, rfl⟩
    · exact h.labels id' state hstate u hu
    · exact hfits

theorem Sound.link (h : n.Sound) {source target rule : Nat} {kind : StateKind}
    (hsource : n.HasState source rule kind) (htarget : n.HasRule target rule) :
    (n.link source target).Sound := by
  obtain ⟨state, hstate, rfl, rfl⟩ := hsource
  refine h.addTransition source trivial (fun other hother _ => ?_) fun _ _ _ => ⟨target, rfl⟩
  rw [hstate, Option.some.injEq] at hother
  rw [← hother]
  exact htarget

/-- The entry of a lexer may lead anywhere. -/
theorem Sound.linkEntry (h : n.Sound) {source target rule : Nat}
    (hsource : n.HasState source rule .tokensStart) : (n.link source target).Sound := by
  obtain ⟨state, hstate, -, hkind⟩ := hsource
  refine h.addTransition source trivial (fun other hother hinner => ?_) fun _ _ _ => ⟨target, rfl⟩
  rw [hstate, Option.some.injEq] at hother
  rw [← hother, hkind] at hinner
  cases hinner

end Sound

/-! ## Declaring rules -/

theorem sound_empty (kind : NetworkKind) (maxSymbol : Int) : (empty kind maxSymbol).Sound := by
  have hnone : ∀ id, (empty kind maxSymbol).state? id = none := fun id => rfl
  refine ⟨rfl, rfl, ?_, ?_, ?_, ?_, ?_, ?_, ?_, nofun⟩
  · intro rule start hstart
    cases hstart
  · intro rule stop hstop
    cases hstop
  · intro rule start hstart
    cases hstart
  all_goals
    intro id state hstate
    rw [hnone] at hstate
    cases hstate

theorem state?_declareRule (n : Network) (rule : Rule) (id : Nat) :
    (n.declareRule rule).state? id =
      if id = n.size then
        some { id := n.size, kind := .ruleStart, rule := rule.index, endState := some (n.size + 1),
               isPrecedence := rule.leftRecursion.isSome }
      else if id = n.size + 1 then some { id := n.size + 1, kind := .ruleStop, rule := rule.index }
      else n.state? id := by
  have hstates : ∀ id, (n.addRule rule.name rule.index).state? id =
      ((n.addState .ruleStart rule.index).addState .ruleStop rule.index).state? id :=
    fun _ => rfl
  unfold declareRule
  simp only
  rw [state?_modifyState, hstates, state?_addState, state?_addState, size_addState]
  by_cases h : id = n.size
  · subst h
    rw [if_pos rfl, if_pos rfl, if_neg (by omega), if_pos rfl]
    rfl
  · rw [if_neg (fun hid => h hid.symm), if_neg h]
    split <;> rfl

section Declare

variable {n : Network} {rule : Rule} {id : Nat} {state : State}

/-- The states there are stay what they are. -/
theorem state?_declareRule_of_some (hstate : n.state? id = some state) :
    (n.declareRule rule).state? id = some state := by
  have hlt : id < n.size := (Array.getElem?_eq_some_iff.mp hstate).1
  rw [state?_declareRule, if_neg (by omega), if_neg (by omega)]
  exact hstate

/-- The new states have no transitions. -/
theorem state?_or_nil_of_declareRule (hstate : (n.declareRule rule).state? id = some state) :
    n.state? id = some state ∨ state.transitions = [] := by
  rw [state?_declareRule] at hstate
  split at hstate
  · exact .inr (Option.some.inj hstate ▸ rfl)
  · split at hstate
    · exact .inr (Option.some.inj hstate ▸ rfl)
    · exact .inl hstate

theorem HasState.declareRule {r : Nat} {kind : StateKind} (h : n.HasState id r kind) :
    (n.declareRule rule).HasState id r kind := by
  obtain ⟨state, hstate, hrest⟩ := h
  exact ⟨state, state?_declareRule_of_some hstate, hrest⟩

theorem HasRule.declareRule {r : Nat} (h : n.HasRule id r) : (n.declareRule rule).HasRule id r := by
  obtain ⟨state, hstate, hrest⟩ := h
  exact ⟨state, state?_declareRule_of_some hstate, hrest⟩

/-- The starts are those before and one behind them. -/
theorem start_of_declareRule {r start : Nat} (h : (n.declareRule rule).ruleStarts[r]? = some start) :
    r = n.ruleStarts.size ∧ start = n.size ∨ n.ruleStarts[r]? = some start := by
  rw [show (n.declareRule rule).ruleStarts = n.ruleStarts.push n.size from rfl,
    Array.getElem?_push] at h
  split at h
  · next hr => exact .inl ⟨hr, (Option.some.inj h).symm⟩
  · exact .inr h

theorem ruleStarts_declareRule_of_some {r start : Nat} (h : n.ruleStarts[r]? = some start) :
    (n.declareRule rule).ruleStarts[r]? = some start := by
  rw [show (n.declareRule rule).ruleStarts = n.ruleStarts.push n.size from rfl,
    Array.getElem?_push_lt (Array.getElem?_eq_some_iff.mp h).1, ← Array.getElem?_eq_getElem]
  exact h

theorem ruleStops_declareRule (n : Network) (rule : Rule) (r : Nat) :
    (n.declareRule rule).ruleStops[r]? =
      if r = n.ruleStops.size then some (n.size + 1) else n.ruleStops[r]? := by
  rw [show (n.declareRule rule).ruleStops = n.ruleStops.push (n.size + 1) from rfl,
    Array.getElem?_push]

theorem Stays.declareRule {r : Nat} {t : Transition} (h : n.Stays r t) :
    (n.declareRule rule).Stays r t :=
  h.mono (fun _ _ => ruleStarts_declareRule_of_some) fun _ _ => HasRule.declareRule

namespace Sound

theorem starts_declareRule (h : n.Sound) (hrule : rule.index = n.ruleStarts.size) {r start : Nat}
    (hstart : (n.declareRule rule).ruleStarts[r]? = some start) :
    (n.declareRule rule).HasState start r .ruleStart := by
  rcases start_of_declareRule hstart with ⟨rfl, rfl⟩ | hstart
  · exact ⟨_, by rw [state?_declareRule, if_pos rfl], hrule, rfl⟩
  · exact (h.starts r start hstart).declareRule

theorem stops_declareRule (h : n.Sound) (hrule : rule.index = n.ruleStarts.size) {r stop : Nat}
    (hstop : (n.declareRule rule).ruleStops[r]? = some stop) :
    (n.declareRule rule).HasState stop r .ruleStop := by
  rw [ruleStops_declareRule] at hstop
  split at hstop
  · next hr =>
      rw [← Option.some.inj hstop]
      exact ⟨_, by rw [state?_declareRule, if_neg (by omega), if_pos rfl],
        (hrule.trans h.paired).trans hr.symm, rfl⟩
  · exact (h.stops r stop hstop).declareRule

theorem ends_declareRule (h : n.Sound) {r start : Nat}
    (hstart : (n.declareRule rule).ruleStarts[r]? = some start) :
    ∃ state, (n.declareRule rule).state? start = some state ∧
      state.endState = (n.declareRule rule).ruleStops[r]? := by
  rw [ruleStops_declareRule, ← h.paired]
  rcases start_of_declareRule hstart with ⟨rfl, rfl⟩ | hstart
  · exact ⟨_, by rw [state?_declareRule, if_pos rfl], by rw [if_pos rfl]⟩
  · obtain ⟨state, hstate, hend⟩ := h.ends r start hstart
    have hlt := (Array.getElem?_eq_some_iff.mp hstart).1
    exact ⟨state, state?_declareRule_of_some hstate, by rw [if_neg (Nat.ne_of_lt hlt)]; exact hend⟩

/-- The new stop is that of the new rule. -/
theorem borders_declareRule (h : n.Sound) (hrule : rule.index = n.ruleStarts.size)
    (hstate : (n.declareRule rule).state? id = some state) :
    (state.kind = .ruleStop → (n.declareRule rule).ruleStops[state.rule]? = some id) ∧
      (state.kind = .tokensStart → (n.declareRule rule).tokensStart = some id) := by
  rw [ruleStops_declareRule]
  rw [state?_declareRule] at hstate
  split at hstate
  · rw [← Option.some.inj hstate]
    exact ⟨nofun, nofun⟩
  · split at hstate
    · next hid =>
        rw [← Option.some.inj hstate, if_pos (hrule.trans h.paired), hid]
        exact ⟨fun _ => rfl, nofun⟩
    · obtain ⟨hstop, htokens⟩ := h.borders id state hstate
      refine ⟨fun hkind => ?_, htokens⟩
      have hlt := (Array.getElem?_eq_some_iff.mp (hstop hkind)).1
      rw [if_neg (Nat.ne_of_lt hlt)]
      exact hstop hkind

/-- What holds of the transitions there are holds of all of them. -/
theorem transitions_declareRule {motive : State → Transition → Prop}
    (hbefore : ∀ id state, n.state? id = some state → ∀ t ∈ state.transitions, motive state t)
    (hstate : (n.declareRule rule).state? id = some state) :
    ∀ t ∈ state.transitions, motive state t := by
  rcases state?_or_nil_of_declareRule hstate with h | hnil
  · exact hbefore id state h
  · rw [hnil]
    exact nofun

/-- A rule with the next number may be declared. -/
theorem declareRule (h : n.Sound) (hrule : rule.index = n.ruleStarts.size) :
    (n.declareRule rule).Sound where
  paired := (Array.size_push ..).trans ((congrArg (· + 1) h.paired).trans (Array.size_push ..).symm)
  named := (Array.size_push ..).trans ((congrArg (· + 1) h.named).trans (Array.size_push ..).symm)
  starts _ _ hstart := h.starts_declareRule hrule hstart
  stops _ _ hstop := h.stops_declareRule hrule hstop
  ends _ _ hstart := h.ends_declareRule hstart
  borders _ _ hstate := h.borders_declareRule hrule hstate
  stays _ _ hstate hkind t ht := transitions_declareRule
    (motive := fun state t => state.kind.isBorder = false → (n.declareRule rule).Stays state.rule t)
    (fun id state hbefore t ht hkind => (h.stays id state hbefore hkind t ht).declareRule)
    hstate t ht hkind
  exits _ _ hstate hkind t ht := transitions_declareRule
    (motive := fun state t => state.kind.isBorder = true → ∃ follow, t = .epsilon follow)
    (fun id state hbefore t ht hkind => h.exits id state hbefore hkind t ht) hstate t ht hkind
  labels _ _ hstate := transitions_declareRule h.labels hstate
  entry id hid := by
    obtain ⟨r, hr⟩ := h.entry id hid
    exact ⟨r, hr.declareRule⟩

end Sound

end Declare

theorem sound_declareRules (rules : List Rule) {n : Network} (h : n.Sound)
    (hrules : ∀ i rule, rules[i]? = some rule → rule.index = n.ruleStarts.size + i) :
    (rules.foldl declareRule n).Sound ∧
      (rules.foldl declareRule n).ruleStarts.size = n.ruleStarts.size + rules.length ∧
      (rules.foldl declareRule n).maxSymbol = n.maxSymbol ∧
      (rules.foldl declareRule n).kind = n.kind ∧
      (rules.foldl declareRule n).tokensStart = n.tokensStart := by
  induction rules generalizing n with
  | nil => exact ⟨h, rfl, rfl, rfl, rfl⟩
  | cons rule rules ih =>
      have hfirst := hrules 0 rule rfl
      have hsize : (n.declareRule rule).ruleStarts.size = n.ruleStarts.size + 1 :=
        Array.size_push ..
      obtain ⟨hsound, hstarts, hmax, hkind, htokens⟩ :=
        ih (h.declareRule hfirst) fun i r hr => by
          rw [hsize, hrules (i + 1) r hr]
          omega
      refine ⟨hsound, ?_, hmax, hkind, htokens⟩
      rw [List.foldl_cons, hstarts, hsize, List.length_cons]
      omega

/-! ## Building rules -/

/-- What building rules leaves alone. -/
structure SameRules (n n' : Network) : Prop where
  starts : n'.ruleStarts = n.ruleStarts
  names : n'.ruleNames = n.ruleNames
  maxSymbol : n'.maxSymbol = n.maxSymbol
  kind : n'.kind = n.kind
  tokensStart : n'.tokensStart = n.tokensStart

theorem SameRules.refl (n : Network) : SameRules n n := ⟨rfl, rfl, rfl, rfl, rfl⟩

theorem SameRules.trans {n n' n'' : Network} (h : SameRules n n') (h' : SameRules n' n'') :
    SameRules n n'' :=
  ⟨h'.starts.trans h.starts, h'.names.trans h.names, h'.maxSymbol.trans h.maxSymbol,
    h'.kind.trans h.kind, h'.tokensStart.trans h.tokensStart⟩

theorem Keeps.sameRules {rule lo : Nat} {n n' : Network} (h : Keeps rule lo n n') :
    SameRules n n' :=
  ⟨ruleStarts_of_header h.header_eq, congrArg (fun header => header.2.2.2.2.1) h.header_eq,
    congrArg (fun header => header.2.1) h.header_eq,
    congrArg (fun header => header.1) h.header_eq,
    congrArg (fun header => header.2.2.2.2.2) h.header_eq⟩

/-- Nothing leads on from the stops of rules yet. -/
def StopsBare (network : Network) : Prop :=
  ∀ id state, network.state? id = some state → state.kind = .ruleStop → state.transitions = []

theorem StopsBare.of_keeps {n n' : Network} (h : n.StopsBare) {rule : Nat}
    (hkeeps : Keeps rule n.size n n') : n'.StopsBare := by
  intro id state hstate hkind
  by_cases hid : id < n.size
  · rw [hkeeps.below id hid] at hstate
    exact h id state hstate hkind
  · have hwithin : n'.Within rule n.size := hkeeps.within fun id state hid hstate =>
      absurd (Array.getElem?_eq_some_iff.mp hstate).1 (Nat.not_lt.mpr hid)
    obtain ⟨-, hinner, -⟩ := hwithin id state (Nat.not_lt.mp hid) hstate
    exact absurd hkind (StateKind.isBorder_eq_false.mp hinner).1

theorem StopsBare.link {n : Network} (h : n.StopsBare) {source rule : Nat} {kind : StateKind}
    (hsource : n.HasState source rule kind) (hkind : kind ≠ .ruleStop) (target : Nat) :
    (n.link source target).StopsBare := by
  obtain ⟨s, hs, -, rfl⟩ := hsource
  intro id state hstate hstop
  unfold Network.link Network.addTransition at hstate
  rw [state?_modifyState] at hstate
  split at hstate
  · next hid =>
      subst hid
      rw [hs] at hstate
      obtain rfl := Option.some.inj hstate
      exact absurd hstop hkind
  · exact h id state hstate hstop

section BuildRules

variable {grammar : Grammar} {vocabulary : Vocabulary} {kind : NetworkKind}

/-- The body of a rule, between its start and its stop. -/
theorem sound_buildRule (hv : vocabulary.Fits) {rule : Rule} (definition : RuleDef)
    {b : Builder} (h : b.network.Sound)
    (hcalls : ∀ name callee, grammar.rule? name = some callee →
      callee.isLexerRule = (kind == .lexer) → callee.index < b.network.ruleStarts.size)
    (hrule : rule.index < b.network.ruleStarts.size) {after : Network}
    (hafter : after =
      ((buildRule grammar vocabulary kind rule definition).run b).2.network) :
    after.Sound ∧ SameRules b.network after ∧ (b.network.StopsBare → after.StopsBare) := by
  unfold buildRule at hafter
  simp only [run_bind] at hafter
  generalize hscope : (Scope.mk grammar vocabulary kind rule.index
    (operatorLoop? rule definition)) = scope at hafter
  have hcalls : CallsKnown scope b.network := by
    subst hscope
    intro name callee hname hkind
    exact ⟨_, Array.getElem?_eq_getElem (hcalls name callee hname hkind)⟩
  have hv : scope.vocabulary.Fits := by
    subst hscope
    exact hv
  have hscoperule : scope.rule = rule.index := by
    subst hscope
    rfl
  have hparts := builds_altParts hv definition.alts (Nat.le_refl _) hcalls
  have hbody := hparts.then (builds_choice (hparts.size (Nat.le_refl _)) hparts.within
    definition.block.extent.start .ruleBlock)
  generalize (Build.choice scope definition.block.extent.start .ruleBlock
    ((altParts scope definition.alts).run b).1).run
    ((altParts scope definition.alts).run b).2 = built at hafter hbody
  obtain ⟨body, b'⟩ := built
  have hsound : b'.network.Sound := h.of_keeps hbody.keeps
  have hsame := hbody.keeps.sameRules
  have hwithin : b'.network.Within scope.rule b.network.size :=
    hbody.keeps.within fun id state hid hstate =>
      absurd (Array.getElem?_eq_some_iff.mp hstate).1 (Nat.not_lt.mpr hid)
  have hget : (get : Build Builder).run b' = (b', b') := rfl
  simp only [hget, Build.link, Build.transition, run_update, network_withNetwork] at hafter
  -- the ends of the body, and those of the rule
  have hbelongs : ∀ id, b.network.size ≤ id → id < b'.network.size →
      ∃ kind, kind.isBorder = false ∧ b'.network.HasState id rule.index kind ∧
        b'.network.HasRule id rule.index := by
    intro id hid hlt
    obtain ⟨state, hstate⟩ : ∃ state, b'.network.state? id = some state :=
      ⟨_, Array.getElem?_eq_getElem hlt⟩
    obtain ⟨hr, hk, -⟩ := hwithin id _ hid hstate
    have hstate : b'.network.HasState id rule.index state.kind :=
      ⟨_, hstate, hr.trans hscoperule, rfl⟩
    exact ⟨_, hk, hstate, hstate.hasRule (StateKind.isBorder_eq_false.mp hk).2⟩
  obtain ⟨leftKind, -, -, hleft⟩ := hbelongs _ hbody.within.left_ge hbody.within.left_lt
  obtain ⟨rightKind, hrightKind, hright, -⟩ := hbelongs _ hbody.within.right_ge hbody.within.right_lt
  have hrule : rule.index < b'.network.ruleStarts.size := by
    rw [hsame.starts]
    exact hrule
  have hstop : rule.index < b'.network.ruleStops.size := by
    rw [← hsound.paired]
    exact hrule
  rw [Array.getElem?_eq_getElem hrule, Array.getElem?_eq_getElem hstop] at hafter
  simp only [Option.getD_some] at hafter
  have hstartState := hsound.starts _ _ (Array.getElem?_eq_getElem hrule)
  have hstopState := hsound.stops _ _ (Array.getElem?_eq_getElem hstop)
  have hfirst := hsound.link hstartState hleft
  have hmove : ∀ id r k, b'.network.HasState id r k →
      (b'.network.link (b'.network.ruleStarts[rule.index]) body.left).HasState id r k :=
    fun id r k hs => hs.addTransition
  have hsecond := hfirst.link (hmove _ _ _ hright) ((hmove _ _ _ hstopState).hasRule (by decide))
  have hbare : b.network.StopsBare → ((b'.network.link b'.network.ruleStarts[rule.index]
      body.left).link body.right b'.network.ruleStops[rule.index]).StopsBare := fun h =>
    ((h.of_keeps hbody.keeps).link hstartState (by decide) _).link (hmove _ _ _ hright)
      (StateKind.isBorder_eq_false.mp hrightKind).1 _
  split at hafter
  · next tokens htokens =>
      split at hafter
      · subst hafter
        exact ⟨hsecond, hsame.trans ⟨rfl, rfl, rfl, rfl, rfl⟩, hbare⟩
      · subst hafter
        obtain ⟨r, hentry⟩ := hsecond.entry tokens htokens
        exact ⟨hsecond.linkEntry hentry, hsame.trans ⟨rfl, rfl, rfl, rfl, rfl⟩,
          fun h => (hbare h).link hentry (by decide) _⟩
  · subst hafter
    exact ⟨hsecond, hsame.trans ⟨rfl, rfl, rfl, rfl, rfl⟩, hbare⟩

theorem sound_buildRules (hv : vocabulary.Fits) (rules : List Rule) {b : Builder}
    (h : b.network.Sound)
    (hcalls : ∀ name callee, grammar.rule? name = some callee →
      callee.isLexerRule = (kind == .lexer) → callee.index < b.network.ruleStarts.size)
    (hrules : ∀ rule ∈ rules, rule.index < b.network.ruleStarts.size) :
    ((buildRules grammar vocabulary kind rules).run b).2.network.Sound ∧
      SameRules b.network ((buildRules grammar vocabulary kind rules).run b).2.network ∧
      (b.network.StopsBare →
        ((buildRules grammar vocabulary kind rules).run b).2.network.StopsBare) := by
  induction rules generalizing b with
  | nil => exact ⟨h, SameRules.refl _, id⟩
  | cons rule rules ih =>
      obtain ⟨hrule, hrest⟩ := List.forall_mem_cons.mp hrules
      unfold buildRules
      cases hdef : grammar.definition? rule with
      | none => exact ih h hcalls hrest
      | some definition =>
          obtain ⟨hsound, hsame, hbare⟩ :=
            sound_buildRule hv definition h hcalls hrule rfl
          obtain ⟨hsound', hsame', hbare'⟩ := ih hsound
            (by rw [hsame.starts]; exact hcalls) (by rw [hsame.starts]; exact hrest)
          exact ⟨hsound', hsame.trans hsame', hbare' ∘ hbare⟩

end BuildRules

/-! ## Returns -/

/-- Lets the stops of rules lead to where the callers go on. -/
def withReturns (network : Network) (calls : List (Nat × Nat)) : Network :=
  calls.foldl (fun network (rule, follow) =>
    network.addTransition ((network.ruleStops[rule]?).getD 0) (.epsilon follow)) network

theorem Sound.addReturn {n : Network} (h : n.Sound) {callee : Nat} (follow : Nat)
    (hcallee : callee < n.ruleStarts.size) :
    (n.addTransition ((n.ruleStops[callee]?).getD 0) (.epsilon follow)).Sound := by
  have hlt : callee < n.ruleStops.size := by
    rw [← h.paired]
    exact hcallee
  obtain ⟨stop, hstop, -, hkind⟩ := h.stops callee _ (Array.getElem?_eq_getElem hlt)
  rw [Array.getElem?_eq_getElem hlt, Option.getD_some]
  refine h.addTransition _ trivial (fun other hother hnot => ?_) fun _ _ _ => ⟨follow, rfl⟩
  rw [hstop, Option.some.injEq] at hother
  rw [← hother, hkind] at hnot
  cases hnot

theorem sound_returns (calls : List (Nat × Nat)) {n : Network} (h : n.Sound)
    (hcalls : ∀ call ∈ calls, call.1 < n.ruleStarts.size) :
    (n.withReturns calls).Sound ∧ SameRules n (n.withReturns calls) := by
  induction calls generalizing n with
  | nil => exact ⟨h, SameRules.refl n⟩
  | cons call calls ih =>
      obtain ⟨hcall, hrest⟩ := List.forall_mem_cons.mp hcalls
      obtain ⟨hsound, hsame⟩ := ih (h.addReturn call.2 hcall) hrest
      have hfirst : SameRules n
          (n.addTransition ((n.ruleStops[call.1]?).getD 0) (.epsilon call.2)) :=
        ⟨rfl, rfl, rfl, rfl, rfl⟩
      exact ⟨hsound, hfirst.trans hsame⟩

/-- Only states within rules make calls, and of rules that there are. -/
theorem Sound.stays_of_call {n : Network} (h : n.Sound) {call : Nat × Nat}
    (hcall : call ∈ n.calls) :
    ∃ target precedence rule, n.Stays rule (.rule target call.1 precedence call.2) := by
  obtain ⟨t, ht, hsome⟩ := List.mem_filterMap.mp hcall
  obtain ⟨state, hmem, ht⟩ := List.mem_flatMap.mp ht
  obtain ⟨id, hstate⟩ := Array.mem_iff_getElem?.mp (Array.mem_toList_iff.mp hmem)
  cases t with
  | rule target callee precedence follow =>
      simp only [Option.some.injEq] at hsome
      subst hsome
      cases hkind : state.kind.isBorder with
      | true =>
          obtain ⟨_, hepsilon⟩ := h.exits id state hstate hkind _ ht
          cases hepsilon
      | false => exact ⟨target, precedence, state.rule, h.stays id state hstate hkind _ ht⟩
  | _ => cases hsome

theorem Sound.calls_lt {n : Network} (h : n.Sound) :
    ∀ call ∈ n.calls, call.1 < n.ruleStarts.size := by
  intro call hcall
  obtain ⟨target, precedence, rule, hstarts, -⟩ := h.stays_of_call hcall
  exact (Array.getElem?_eq_some_iff.mp hstarts).1

theorem Sound.addReturns {n : Network} (h : n.Sound) :
    (n.withReturns n.calls).Sound ∧ SameRules n (n.withReturns n.calls) :=
  sound_returns n.calls h h.calls_lt

/-! ## The network of a grammar -/

def rulesOf (grammar : Grammar) : NetworkKind → List Rule
  | .lexer => grammar.lexerRules
  | .parser => grammar.parserRules

def blank (vocabulary : Vocabulary) : NetworkKind → Network
  | .lexer => (empty .lexer Symbol.lastChar).addTokensStart
  | .parser => empty .parser vocabulary.maxType

def declared (grammar : Grammar) (vocabulary : Vocabulary) (kind : NetworkKind) : Network :=
  (rulesOf grammar kind).foldl declareRule (blank vocabulary kind)

/-- The network when all rules are built and no stop leads anywhere yet. -/
def built (grammar : Grammar) (vocabulary : Vocabulary) (kind : NetworkKind) : Network :=
  ((buildRules grammar vocabulary kind (rulesOf grammar kind)).run
    ⟨declared grammar vocabulary kind, 0, 0⟩).2.network

theorem ofGrammar_eq (grammar : Grammar) (vocabulary : Vocabulary) (kind : NetworkKind) :
    ofGrammar grammar vocabulary kind =
      (built grammar vocabulary kind).withReturns (built grammar vocabulary kind).calls := by
  cases kind <;> rfl

/-- The largest symbol of a network. -/
def maxSymbolOf (vocabulary : Vocabulary) : NetworkKind → Int
  | .lexer => Symbol.lastChar
  | .parser => vocabulary.maxType

theorem sound_blank (vocabulary : Vocabulary) (kind : NetworkKind) :
    (blank vocabulary kind).Sound ∧ (blank vocabulary kind).ruleStarts = #[] ∧
      (blank vocabulary kind).maxSymbol = maxSymbolOf vocabulary kind ∧
      (blank vocabulary kind).kind = kind := by
  cases kind with
  | parser => exact ⟨sound_empty .parser _, rfl, rfl, rfl⟩
  | lexer =>
      refine ⟨?_, rfl, rfl, rfl⟩
      have hstate : ∀ id state, (blank vocabulary .lexer).state? id = some state → id = 0 ∧
          state = { id := 0, kind := .tokensStart, rule := 0, decision := some 0 } := by
        intro id state hstate
        cases id with
        | zero => exact ⟨rfl, (Option.some.inj hstate).symm⟩
        | succ id => cases hstate
      refine ⟨rfl, rfl, nofun, nofun, nofun, fun id state h => ?_, ?_, ?_, ?_, fun id hid => ?_⟩
      · obtain ⟨rfl, rfl⟩ := hstate id state h
        exact ⟨nofun, fun _ => rfl⟩
      · intro id state h _ t ht
        obtain ⟨-, rfl⟩ := hstate id state h
        cases ht
      · intro id state h _ t ht
        obtain ⟨-, rfl⟩ := hstate id state h
        cases ht
      · intro id state h t ht
        obtain ⟨-, rfl⟩ := hstate id state h
        cases ht
      · obtain rfl := Option.some.inj hid
        exact ⟨0, _, rfl, rfl, rfl⟩

theorem mem_rulesOf {grammar : Grammar} {kind : NetworkKind} {rule : Rule}
    (hrule : rule ∈ grammar.rules) (hkind : rule.isLexerRule = (kind == .lexer)) :
    rule ∈ rulesOf grammar kind := by
  cases kind with
  | lexer => exact List.mem_filter.mpr ⟨hrule, hkind⟩
  | parser =>
      refine List.mem_filter.mpr ⟨hrule, ?_⟩
      rw [hkind]
      rfl

/-- The number of a rule is its place among the rules of its kind. -/
theorem rulesOf_index {grammar : Grammar} (hg : grammar.Numbered) (kind : NetworkKind) :
    ∀ (i : Nat) (rule : Rule), (rulesOf grammar kind)[i]? = some rule → rule.index = i := by
  cases kind with
  | lexer => exact hg.lexerRules_index
  | parser => exact hg.parserRules_index

theorem sound_declared {grammar : Grammar} (hg : grammar.Numbered) (vocabulary : Vocabulary)
    (kind : NetworkKind) :
    (declared grammar vocabulary kind).Sound ∧
      (declared grammar vocabulary kind).maxSymbol = maxSymbolOf vocabulary kind ∧
      (declared grammar vocabulary kind).kind = kind ∧
      (declared grammar vocabulary kind).ruleStarts.size = (rulesOf grammar kind).length := by
  obtain ⟨hblank, hnone, hlast, hkind'⟩ := sound_blank vocabulary kind
  obtain ⟨hsound, hsize, hmax, hkind, -⟩ := sound_declareRules (rulesOf grammar kind) hblank
    fun i rule hr => by
      rw [rulesOf_index hg kind i rule hr, hnone]
      exact (Nat.zero_add i).symm
  rw [hnone, Array.size_empty, Nat.zero_add] at hsize
  exact ⟨hsound, hmax.trans hlast, hkind.trans hkind', hsize⟩

theorem index_lt_declared {grammar : Grammar} (hg : grammar.Numbered) (vocabulary : Vocabulary)
    (kind : NetworkKind) :
    ∀ rule ∈ rulesOf grammar kind,
      rule.index < (declared grammar vocabulary kind).ruleStarts.size := by
  intro rule hrule
  obtain ⟨i, hi⟩ := List.mem_iff_getElem?.mp hrule
  rw [(sound_declared hg vocabulary kind).2.2.2, rulesOf_index hg kind i rule hi]
  exact (List.getElem?_eq_some_iff.mp hi).1

theorem callee_lt_declared {grammar : Grammar} (hg : grammar.Numbered) (vocabulary : Vocabulary)
    (kind : NetworkKind) (name : String) (callee : Rule) (hname : grammar.rule? name = some callee)
    (hkind : callee.isLexerRule = (kind == .lexer)) :
    callee.index < (declared grammar vocabulary kind).ruleStarts.size :=
  index_lt_declared hg vocabulary kind callee (mem_rulesOf (List.mem_of_find?_eq_some hname) hkind)

theorem sound_built {grammar : Grammar} (hg : grammar.Numbered) {vocabulary : Vocabulary}
    (hv : vocabulary.Fits) (kind : NetworkKind) :
    (built grammar vocabulary kind).Sound ∧
      SameRules (declared grammar vocabulary kind) (built grammar vocabulary kind) ∧
      ((declared grammar vocabulary kind).StopsBare →
        (built grammar vocabulary kind).StopsBare) :=
  @sound_buildRules grammar vocabulary kind hv (rulesOf grammar kind)
    ⟨declared grammar vocabulary kind, 0, 0⟩ (sound_declared hg vocabulary kind).1
    (callee_lt_declared hg vocabulary kind) (index_lt_declared hg vocabulary kind)

/-- The network of a grammar is sound. -/
theorem sound_ofGrammar {grammar : Grammar} (hg : grammar.Numbered) {vocabulary : Vocabulary}
    (hv : vocabulary.Fits) (kind : NetworkKind) :
    (ofGrammar grammar vocabulary kind).Sound ∧
      (ofGrammar grammar vocabulary kind).maxSymbol = maxSymbolOf vocabulary kind ∧
      (ofGrammar grammar vocabulary kind).kind = kind ∧
      (ofGrammar grammar vocabulary kind).ruleStarts.size = (rulesOf grammar kind).length := by
  obtain ⟨-, hmax, hkind, hsize⟩ := sound_declared hg vocabulary kind
  obtain ⟨hbuilt, hsame, -⟩ := sound_built hg hv kind
  obtain ⟨hreturns, hsame'⟩ := hbuilt.addReturns
  have hall := hsame.trans hsame'
  rw [ofGrammar_eq]
  exact ⟨hreturns, hall.maxSymbol.trans hmax, hall.kind.trans hkind,
    by rw [hall.starts]; exact hsize⟩

/-- The search is exact on the network of a parser without cycles. -/
theorem searchable_ofGrammar {grammar : Grammar} (hg : grammar.Numbered)
    {vocabulary : Vocabulary} (hv : vocabulary.Fits) (hmax : vocabulary.maxType < maxInt32)
    (hcycles : (ofGrammar grammar vocabulary .parser).cycles = []) :
    (ofGrammar grammar vocabulary .parser).Searchable := by
  obtain ⟨hsound, hsymbol, -⟩ := sound_ofGrammar hg hv .parser
  exact ⟨hsound.ruled, hsound.labels, Int.lt_of_le_of_lt (Int.le_of_eq hsymbol) hmax, hcycles⟩

end Network

end GrammarCompiler
