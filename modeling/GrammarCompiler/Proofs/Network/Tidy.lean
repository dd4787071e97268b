import GrammarCompiler.Proofs.Network.Ways

/-!
# Decisions and calls under construction

A state knows its number. A decision is listed in its network, and its state has the number of its
place there. A state makes one call at most, and its caller goes on at the state behind it. No
change of a network disturbs this (`Neat`). Besides, all states from which more than one way leads
on are decisions once the construct that they belong to is complete (`Tidy`).
-/

namespace GrammarCompiler

/-- The call that a transition makes: the rule that is called, and where the caller goes on. -/
def Transition.call? : Transition → Option (Nat × Nat)
  | rule _ callee _ follow => some (callee, follow)
  | _ => none

def State.calls (state : State) : List (Nat × Nat) :=
  state.transitions.filterMap Transition.call?

namespace Network

theorem calls_eq (network : Network) :
    network.calls = network.states.toList.flatMap State.calls := by
  unfold calls transitions
  rw [List.filterMap_congr (g := Transition.call?) fun t _ => by cases t <;> rfl,
    List.filterMap_flatMap]
  rfl

/-- States and decisions have the numbers of their places. A state makes one call at most and goes
on at the next state. -/
structure Neat (network : Network) : Prop where
  ids : ∀ id state, network.state? id = some state → state.id = id
  numbered : ∀ d id : Nat, network.decisions[d]? = some id ↔
    ∃ state, network.state? id = some state ∧ state.decision = some d
  calls : ∀ id state, network.state? id = some state →
    state.calls = [] ∨ ∃ rule, state.calls = [(rule, id + 1)]

/-- A state that is no decision yet. -/
def Fresh (network : Network) (id : Nat) : Prop :=
  ∃ state, network.state? id = some state ∧ state.decision = none

section Neat

variable {n : Network} {parts : List Handle}

/-! ## Single changes -/

theorem fresh_addState (n : Network) (kind : StateKind) (rule : Nat) :
    (n.addState kind rule).Fresh n.size :=
  ⟨_, n.state?_addState_self kind rule, rfl⟩

theorem Fresh.mark {id : Nat} (h : n.Fresh id) (id' : Nat) {f : State → State}
    (hf : ∀ s, (f s).decision = s.decision) : (n.modifyState id' f).Fresh id := by
  obtain ⟨state, hstate, hnone⟩ := h
  unfold Fresh
  rw [state?_modifyState]
  split
  · exact ⟨f state, by rw [hstate]; rfl, (hf state).trans hnone⟩
  · exact ⟨state, hstate, hnone⟩

theorem Neat.addState (h : n.Neat) (kind : StateKind) (rule : Nat) :
    (n.addState kind rule).Neat := by
  refine ⟨fun id state hstate => ?_, fun d id => (h.numbered d id).trans ?_,
    fun id state hstate => ?_⟩
  · rw [state?_addState] at hstate
    split at hstate
    · next hid =>
        obtain rfl := Option.some.inj hstate
        exact hid.symm
    · exact h.ids id state hstate
  · rw [state?_addState]
    split
    · next hid =>
        have hnone : n.state? id = none := by
          rw [hid]
          exact Array.getElem?_eq_none (Nat.le_refl _)
        simp [hnone]
    · exact Iff.rfl
  · rw [state?_addState] at hstate
    split at hstate
    · obtain rfl := Option.some.inj hstate
      exact .inl rfl
    · exact h.calls id state hstate

/-- A change of a state that leaves its numbers alone. -/
theorem Neat.modifyState (h : n.Neat) (id : Nat) {f : State → State}
    (hf : ∀ s, (f s).id = s.id ∧ (f s).decision = s.decision)
    (hcalls : ∀ s, n.state? id = some s →
      (f s).calls = [] ∨ ∃ rule, (f s).calls = [(rule, id + 1)]) : (n.modifyState id f).Neat := by
  refine ⟨fun id' state hstate => ?_, fun d id' => (h.numbered d id').trans ?_,
    fun id' state hstate => ?_⟩
  · rw [state?_modifyState] at hstate
    split at hstate
    · obtain ⟨s, hs, rfl⟩ := Option.map_eq_some_iff.mp hstate
      exact (hf s).1.trans (h.ids id' s hs)
    · exact h.ids id' state hstate
  · rw [state?_modifyState]
    split
    · cases n.state? id' with
      | none => simp
      | some state => simp [(hf state).2]
    · exact Iff.rfl
  · rw [state?_modifyState] at hstate
    split at hstate
    · next hid =>
        subst hid
        obtain ⟨s, hs, rfl⟩ := Option.map_eq_some_iff.mp hstate
        exact hcalls s hs
    · exact h.calls id' state hstate

/-- A change of a state that leaves its numbers and its calls alone. -/
theorem Neat.mark (h : n.Neat) (id : Nat) {f : State → State}
    (hf : ∀ s, (f s).id = s.id ∧ (f s).decision = s.decision ∧ (f s).calls = s.calls) :
    (n.modifyState id f).Neat :=
  h.modifyState id (fun s => ⟨(hf s).1, (hf s).2.1⟩) fun s hs => by
    rw [(hf s).2.2]
    exact h.calls id s hs

theorem Neat.addTransition (h : n.Neat) (id : Nat) {t : Transition} (ht : t.call? = none) :
    (n.addTransition id t).Neat :=
  h.mark id fun s => ⟨rfl, rfl, by simp [State.calls, ht]⟩

theorem Neat.link (h : n.Neat) (source target : Nat) : (n.link source target).Neat :=
  h.addTransition source (t := .epsilon target) rfl

theorem Neat.insertTransition (h : n.Neat) (id : Nat) {t : Transition} (ht : t.call? = none) :
    (n.insertTransition id 0 t).Neat :=
  h.mark id fun s => ⟨rfl, rfl, by simp [State.calls, ht]⟩

theorem Neat.decide (h : n.Neat) {id : Nat} (hfresh : n.Fresh id) (token : Nat)
    (site : DecisionSite) : (n.decide id token site).Neat := by
  obtain ⟨state, hstate, hnone⟩ := hfresh
  have hstates : ∀ id', (n.decide id token site).state? id' =
      if id = id' then (n.state? id').map fun s =>
        { s with token := some token, decision := some n.decisions.size } else n.state? id' := by
    intro id'
    have hmark := state?_modifyState n id (fun s => { s with token := some token }) id'
    have hlast := state?_modifyState { n.modifyState id fun s => { s with token := some token } with
      decisions := n.decisions.push id } id
      (fun s => { s with decision := some n.decisions.size }) id'
    refine hlast.trans ?_
    rw [show Network.state? { n.modifyState id fun s => { s with token := some token } with
      decisions := n.decisions.push id } id' = _ from hmark]
    split
    · rw [Option.map_map]
      rfl
    · rfl
  have hdecisions : (n.decide id token site).decisions = n.decisions.push id := rfl
  refine ⟨fun id' s hs => ?_, fun d id' => ?_, fun id' s hs => ?_⟩
  · rw [hstates] at hs
    split at hs
    · obtain ⟨s', hs', rfl⟩ := Option.map_eq_some_iff.mp hs
      exact h.ids id' s' hs'
    · exact h.ids id' s hs
  · rw [hstates, hdecisions, Array.getElem?_push]
    by_cases hid : id = id'
    · subst hid
      have hold : n.decisions[d]? ≠ some id := fun hd => by
        obtain ⟨s, hs, hd⟩ := (h.numbered d id).mp hd
        rw [hstate, Option.some.injEq] at hs
        rw [← hs, hnone] at hd
        cases hd
      rw [if_pos rfl, hstate]
      simp only [Option.map_some, Option.some.injEq, exists_eq_left']
      split
      · next hd => simp [hd]
      · next hd => simp [hold, Ne.symm hd]
    · rw [if_neg hid, ← h.numbered]
      split
      · next hd =>
          subst hd
          simp [hid]
      · exact Iff.rfl
  · rw [hstates] at hs
    split at hs
    · obtain ⟨s', hs', rfl⟩ := Option.map_eq_some_iff.mp hs
      exact h.calls id' s' hs'
    · exact h.calls id' s hs

/-! ## Parts -/

/-- A call goes on at the second state of its part. -/
theorem Neat.single (h : n.Neat) (rule : Nat) {t : Transition}
    (ht : ∀ call ∈ t.call?, call.2 = n.size + 1) : (n.single rule t).Neat := by
  refine ((h.addState .basic rule).addState .basic rule).modifyState n.size
    (fun _ => ⟨rfl, rfl⟩) fun s hs => ?_
  rw [state?_addState, size_addState, if_neg (Nat.ne_of_lt (Nat.lt_succ_self _)),
    state?_addState_self] at hs
  obtain rfl := Option.some.inj hs
  cases hcall : t.call? with
  | none => exact .inl (by simp [State.calls, hcall])
  | some call =>
    obtain ⟨callee, follow⟩ := call
    obtain rfl : follow = n.size + 1 := ht _ hcall
    exact .inr ⟨callee, by simp [State.calls, hcall]⟩

theorem Neat.fan (h : n.Neat) (start finish : Nat) (parts : List Handle) :
    (fan start finish n parts).Neat := by
  induction parts generalizing n with
  | nil => exact h
  | cons part parts ih => exact ih ((h.link start part.left).link part.right finish)

theorem Neat.block (h : n.Neat) (rule start : Nat) (parts : List Handle) :
    (n.block rule start parts).Neat :=
  ((h.addState .blockEnd rule).mark start (f := fun s => { s with endState := some n.size })
    fun _ => ⟨rfl, rfl, rfl⟩).fan start n.size parts

theorem Neat.choice (h : n.Neat) (rule token : Nat) (site : DecisionSite) (parts : List Handle) :
    (n.choice rule token site parts).Neat :=
  ((h.addState .basicBlockStart rule).decide (n.fresh_addState ..) token site).block ..

theorem Neat.twoWays (h : n.Neat) (id again finish : Nat) (greedy : Bool) :
    (n.twoWays id again finish greedy).Neat := by
  unfold Network.twoWays
  split
  · exact (h.link id again).link id finish
  · exact (h.link id finish).link id again

theorem Neat.optional (h : n.Neat) (rule : Nat) (greedy : Bool) (token : Nat)
    (parts : List Handle) : (n.optional rule greedy token parts).Neat := by
  have hmark := (h.choice rule token .optional parts).mark n.size
    (f := fun s => { s with nonGreedy := !greedy }) fun _ => ⟨rfl, rfl, rfl⟩
  unfold Network.optional
  dsimp only
  split
  · exact hmark.link ..
  · exact hmark.insertTransition n.size rfl

/-- The start of a loop and its block. -/
theorem Neat.startBlock (h : n.Neat) (kind : StateKind) (rule token : Nat) (site : DecisionSite)
    (parts : List Handle) : (n.startBlock kind rule token site parts).Neat := by
  have hstart := h.addState kind rule
  unfold Network.startBlock decideAmong
  split
  · exact (hstart.decide (n.fresh_addState kind rule) token site).block ..
  · exact hstart.block ..

theorem Neat.star (h : n.Neat) (scope : Scope) (greedy : Bool) (token first : Nat)
    (parts : List Handle) : (n.star scope greedy token first parts).Neat := by
  have hblock := h.startBlock .starBlockStart scope.rule token .starBlock parts
  have hsize : (n.startBlock .starBlockStart scope.rule token .starBlock parts).size =
      n.size + 2 := by
    simp [Network.startBlock, size_addState]
  have hfresh := fresh_addState (n.startBlock .starBlockStart scope.rule token .starBlock parts)
    .starLoopEntry scope.rule
  rw [hsize] at hfresh
  unfold Network.star
  rw [starStates_eq]
  dsimp only
  refine .link (.link (.twoWays (.mark (.mark (.addState (.addState (.decide (.mark (hblock.addState
    .starLoopEntry scope.rule) _ ?_) (hfresh.mark _ ?_) _ _) _ _) _ _) _ ?_) _ ?_) ..) ..) ..
  all_goals exact fun _ => by first | exact rfl | exact ⟨rfl, rfl, rfl⟩

theorem Neat.plus (h : n.Neat) (scope : Scope) (greedy : Bool) (token first : Nat)
    (parts : List Handle) : (n.plus scope greedy token first parts).Neat := by
  have hblock := h.startBlock .plusBlockStart scope.rule token .plusBlock parts
  have hsize : (n.startBlock .plusBlockStart scope.rule token .plusBlock parts).size =
      n.size + 2 := by
    simp [Network.startBlock, size_addState]
  have hfresh := fresh_addState (n.startBlock .plusBlockStart scope.rule token .plusBlock parts)
    .plusLoopBack scope.rule
  rw [hsize] at hfresh
  unfold Network.plus
  rw [plusStates_eq]
  dsimp only
  refine .twoWays (.link (.mark (.mark (.mark (.addState (.decide (.mark (hblock.addState
    .plusLoopBack scope.rule) _ ?_) (hfresh.mark _ ?_) _ _) _ _) _ ?_) _ ?_) _ ?_) ..) ..
  all_goals exact fun _ => by first | exact rfl | exact ⟨rfl, rfl, rfl⟩

/-! ## Forks -/

/-- A state from which more than one way leads on is a decision. Returns do not count. -/
def Decides (network : Network) (id : Nat) : Prop :=
  ∀ reluctant ts, network.ways? id = some (reluctant, ts) → 2 ≤ ts.length →
    id ∈ network.decisions.toList

/-- What is true of a network between the constructs that are put behind it. -/
structure Tidy (network : Network) : Prop where
  neat : network.Neat
  decides : ∀ id, network.Decides id

theorem Decides.of_mem {id : Nat} (h : id ∈ n.decisions.toList) : n.Decides id :=
  fun _ _ _ _ => h

theorem Decides.of_ways {id : Nat} {reluctant : Bool} {ts : List Transition}
    (h : n.ways? id = some (reluctant, ts)) (hts : 2 ≤ ts.length → id ∈ n.decisions.toList) :
    n.Decides id := by
  intro reluctant' ts' h' hlength
  obtain ⟨-, rfl⟩ := Prod.mk.inj (Option.some.inj (h.symm.trans h'))
  exact hts hlength

theorem Decides.none {id : Nat} {reluctant : Bool} (h : n.ways? id = some (reluctant, [])) :
    n.Decides id :=
  .of_ways h fun hlength => absurd hlength (by simp)

theorem Decides.one {id : Nat} {reluctant : Bool} {t : Transition}
    (h : n.ways? id = some (reluctant, [t])) : n.Decides id :=
  .of_ways h fun hlength => absurd hlength (by simp)

/-- A construct behind a network touches the ends of its parts and adds states of its own. -/
theorem Tidy.add {n' : Network} (parts : List Handle) (h : n.Tidy) (hneat : n'.Neat)
    (hmore : ∀ id ∈ n.decisions.toList, id ∈ n'.decisions.toList)
    (hkeeps : ∀ id < n.size, id ∉ parts.map (·.right) → n'.ways? id = n.ways? id)
    (hrights : ∀ p ∈ parts, n'.Decides p.right)
    (hnew : ∀ id, n.size ≤ id → id < n'.size → n'.Decides id) : n'.Tidy := by
  refine ⟨hneat, fun id => ?_⟩
  by_cases hright : id ∈ parts.map (·.right)
  · obtain ⟨p, hp, rfl⟩ := List.mem_map.mp hright
    exact hrights p hp
  · by_cases hid : id < n.size
    · intro reluctant ts hways hlength
      rw [hkeeps id hid hright] at hways
      exact hmore id (h.decides id reluctant ts hways hlength)
    · intro reluctant ts hways
      exact hnew id (Nat.not_lt.mp hid) (n'.lt_of_ways? hways) reluctant ts hways

theorem Tidy.addState (h : n.Tidy) {kind : StateKind} (hkind : kind ≠ .ruleStop) (rule : Nat) :
    (n.addState kind rule).Tidy := by
  refine h.add [] (h.neat.addState kind rule) (fun _ hid => hid)
    (fun id hid _ => n.ways?_addState_lt kind rule hid) nofun fun id hge hlt => ?_
  rw [size_addState] at hlt
  exact .none (n.ways?_addState_new hkind rule (by omega))

/-- The first way on from a state. -/
theorem Tidy.addTransition (h : n.Tidy) {id : Nat} {reluctant : Bool}
    (hways : n.ways? id = some (reluctant, [])) {t : Transition} (ht : t.call? = none) :
    (n.addTransition id t).Tidy := by
  refine ⟨h.neat.addTransition id ht, fun id' => ?_⟩
  by_cases hid : id = id'
  · subst hid
    exact .one (n.ways?_addTransition_self t hways)
  · intro reluctant' ts' hways'
    have hsame : (n.addTransition id t).ways? id' = n.ways? id' := n.ways?_modifyState_ne _ hid
    rw [hsame] at hways'
    exact h.decides id' reluctant' ts' hways'

theorem Tidy.link (h : n.Tidy) {source : Nat} {reluctant : Bool}
    (hways : n.ways? source = some (reluctant, [])) (target : Nat) : (n.link source target).Tidy :=
  h.addTransition (t := .epsilon target) hways rfl

/-- A decision may lead anywhere. -/
theorem Tidy.linkDecision (h : n.Tidy) {source : Nat} (hsource : source ∈ n.decisions.toList)
    (target : Nat) : (n.link source target).Tidy := by
  refine ⟨h.neat.link source target, fun id => ?_⟩
  by_cases hid : source = id
  · subst hid
    exact .of_mem hsource
  · intro reluctant ts hways
    rw [n.ways?_link_ne hid] at hways
    exact h.decides id reluctant ts hways

theorem Tidy.chain (h : n.Tidy) (hloose : n.Loose parts) : (n.chain parts).Tidy := by
  induction parts generalizing n with
  | nil => exact h
  | cons a rest ih =>
      cases rest with
      | nil => exact h
      | cons b rest =>
          exact ih (h.link (hloose.ends a List.mem_cons_self) b.left) (hloose.link b.left)

end Neat

end Network

end GrammarCompiler
