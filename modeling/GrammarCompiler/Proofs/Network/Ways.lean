import GrammarCompiler.Proofs.Network.Region
import Mathlib.Data.List.Nodup

/-!
# Ways on from a state

What a decision is between depends on the transitions of its state, all of them and in their
order, and so does what a network reads. So here it is said exactly which transitions the states
of a construct have once it is complete (`ways?`). A construct changes no states of its parts but
the last ones, which lead nowhere before (`Loose`) and to what follows afterwards.
-/

namespace GrammarCompiler

namespace Network

/-- Whether a state within a rule prefers to read little, and its transitions. -/
def ways? (network : Network) (id : Nat) : Option (Bool × List Transition) :=
  ((network.state? id).filter (·.kind ≠ .ruleStop)).map fun s => (s.nonGreedy, s.transitions)

def toParts (parts : List Handle) : List Transition :=
  parts.map fun part => .epsilon part.left

/-- The transitions of a loop state: another round first, unless the loop prefers to end. -/
def toRound (again finish : Nat) (greedy : Bool) : List Transition :=
  if greedy then [.epsilon again, .epsilon finish] else [.epsilon finish, .epsilon again]

/-- The transitions of an optional block: the way around it comes last, unless the block prefers
it. -/
def toOptional (parts : List Handle) (finish : Nat) (greedy : Bool) : List Transition :=
  if greedy then toParts parts ++ [.epsilon finish] else .epsilon finish :: toParts parts

/-- Parts whose last states lead nowhere yet. Each part has one of its own. -/
structure Loose (network : Network) (parts : List Handle) : Prop where
  ends : ∀ p ∈ parts, network.ways? p.right = some (false, [])
  nodup : (parts.map (·.right)).Nodup

section Ways

variable (n : Network) {id : Nat} {parts : List Handle}

theorem ways?_eq_some {ways : Bool × List Transition} :
    n.ways? id = some ways ↔ ∃ state, n.state? id = some state ∧ state.kind ≠ .ruleStop ∧
      (state.nonGreedy, state.transitions) = ways := by
  unfold ways?
  simp [Option.map_eq_some_iff, Option.filter_eq_some_iff, and_assoc]

theorem lt_of_ways? {ways : Bool × List Transition} (h : n.ways? id = some ways) :
    id < n.size := by
  obtain ⟨state, hstate, -⟩ := n.ways?_eq_some.mp h
  exact (Array.getElem?_eq_some_iff.mp hstate).1

theorem Loose.right_lt {n : Network} (h : n.Loose parts) : ∀ p ∈ parts, p.right < n.size :=
  fun p hp => n.lt_of_ways? (h.ends p hp)

/-- Parts are behind the states there are, so a state that is added is none of their last ones. -/
theorem Loose.not_mem {n : Network} (h : n.Loose parts) {i : Nat} (hi : n.size ≤ i) :
    i ∉ parts.map (·.right) := by
  intro hmem
  obtain ⟨p, hp, rfl⟩ := List.mem_map.mp hmem
  exact absurd (h.right_lt p hp) (Nat.not_lt.mpr hi)

/-- Parts stay loose while nothing happens to their last states. -/
theorem Loose.congr {n n' : Network} (h : n.Loose parts)
    (hways : ∀ id < n.size, n'.ways? id = n.ways? id) : n'.Loose parts :=
  ⟨fun p hp => (hways _ (h.right_lt p hp)).trans (h.ends p hp), h.nodup⟩

/-! ## Single changes -/

theorem ways?_addState_lt (kind : StateKind) (rule : Nat) (hid : id < n.size) :
    (n.addState kind rule).ways? id = n.ways? id := by
  unfold ways?
  rw [state?_addState, if_neg (Nat.ne_of_lt hid)]

theorem ways?_addState_new {kind : StateKind} (hkind : kind ≠ .ruleStop) (rule : Nat)
    (hid : id = n.size) : (n.addState kind rule).ways? id = some (false, []) := by
  refine (ways?_eq_some _).mpr ⟨{ id := n.size, kind, rule }, ?_, hkind, rfl⟩
  rw [state?_addState, if_pos hid]

theorem ways?_modifyState_ne {id' : Nat} (f : State → State) (hid : id' ≠ id) :
    (n.modifyState id' f).ways? id = n.ways? id := by
  unfold ways?
  rw [state?_modifyState, if_neg hid]

theorem ways?_modifyState_self {f : State → State} {greedy : Bool} {ts : List Transition}
    {g : Bool × List Transition → Bool × List Transition}
    (hf : ∀ s, (f s).kind = s.kind ∧
      ((f s).nonGreedy, (f s).transitions) = g (s.nonGreedy, s.transitions))
    (h : n.ways? id = some (greedy, ts)) :
    (n.modifyState id f).ways? id = some (g (greedy, ts)) := by
  obtain ⟨s, hs, hkind, heq⟩ := n.ways?_eq_some.mp h
  refine (ways?_eq_some _).mpr ⟨f s, ?_, by rw [(hf s).1]; exact hkind, by rw [(hf s).2, heq]⟩
  rw [state?_modifyState, if_pos rfl, hs]
  rfl

theorem ways?_mark (id' : Nat) {f : State → State}
    (hf : ∀ s, (f s).kind = s.kind ∧ (f s).nonGreedy = s.nonGreedy ∧
      (f s).transitions = s.transitions) :
    (n.modifyState id' f).ways? id = n.ways? id := by
  unfold ways?
  rw [state?_modifyState]
  split
  · cases n.state? id with
    | none => rfl
    | some s => simp [Option.filter_some, hf s]; split <;> simp [hf s]
  · rfl

theorem ways?_decide (id' token : Nat) (site : DecisionSite) :
    (n.decide id' token site).ways? id = n.ways? id := by
  have hmark : (n.modifyState id' fun s => { s with token := some token }).ways? id = n.ways? id :=
    n.ways?_mark id' fun _ => ⟨rfl, rfl, rfl⟩
  rw [← hmark]
  exact ways?_mark { n.modifyState id' fun s => { s with token := some token } with
    decisions := n.decisions.push id' } id' fun _ => ⟨rfl, rfl, rfl⟩

theorem ways?_decideAmong (id' token : Nat) (site : DecisionSite) (parts : List Handle) :
    (n.decideAmong id' token site parts).ways? id = n.ways? id := by
  unfold decideAmong
  split
  · exact n.ways?_decide ..
  · rfl

theorem ways?_link_ne {source target : Nat} (hid : source ≠ id) :
    (n.link source target).ways? id = n.ways? id :=
  n.ways?_modifyState_ne _ hid

theorem ways?_addTransition_self {greedy : Bool} {ts : List Transition} (t : Transition)
    (h : n.ways? id = some (greedy, ts)) :
    (n.addTransition id t).ways? id = some (greedy, ts ++ [t]) :=
  n.ways?_modifyState_self (f := fun s => { s with transitions := s.transitions ++ [t] })
    (g := fun w => (w.1, w.2 ++ [t])) (fun _ => ⟨rfl, rfl⟩) h

theorem ways?_link_self {greedy : Bool} {ts : List Transition} (target : Nat)
    (h : n.ways? id = some (greedy, ts)) :
    (n.link id target).ways? id = some (greedy, ts ++ [.epsilon target]) :=
  n.ways?_addTransition_self _ h

theorem ways?_link_first {greedy : Bool} (target : Nat) (h : n.ways? id = some (greedy, [])) :
    (n.link id target).ways? id = some (greedy, [.epsilon target]) :=
  n.ways?_link_self target h

/-! ## Rows and fans -/

theorem ways?_single (rule : Nat) (t : Transition) :
    (n.single rule t).ways? n.size = some (false, [t]) ∧
      (n.single rule t).ways? (n.size + 1) = some (false, []) := by
  unfold single
  refine ⟨@ways?_addTransition_self _ _ _ [] t ?_, ?_⟩
  · rw [ways?_addState_lt _ _ _ (by rw [size_addState]; omega),
      ways?_addState_new _ (by decide) _ rfl]
  · unfold addTransition
    rw [ways?_modifyState_ne _ _ (by omega),
      ways?_addState_new _ (by decide) _ (by rw [size_addState])]

theorem ways?_single_lt (rule : Nat) (t : Transition) (hid : id < n.size) :
    (n.single rule t).ways? id = n.ways? id := by
  unfold single addTransition
  rw [ways?_modifyState_ne _ _ (by omega), ways?_addState_lt _ _ _ (by rw [size_addState]; omega),
    ways?_addState_lt _ _ _ hid]

theorem ways?_chain (hid : id ∉ parts.dropLast.map (·.right)) :
    (n.chain parts).ways? id = n.ways? id := by
  induction parts generalizing n with
  | nil => rfl
  | cons a rest ih =>
      cases rest with
      | nil => rfl
      | cons b rest =>
          rw [List.dropLast_cons_cons, List.map_cons, List.mem_cons, not_or] at hid
          exact (ih (n.link a.right b.left) hid.2).trans (n.ways?_link_ne (Ne.symm hid.1))

/-- A part that leads somewhere is loose no more, but the others are. -/
theorem Loose.link {n : Network} {part : Handle} (h : n.Loose (part :: parts)) (target : Nat) :
    (n.link part.right target).Loose parts := by
  obtain ⟨hnew, hnodup⟩ := List.nodup_cons.mp h.nodup
  refine ⟨fun p hp => ?_, hnodup⟩
  rw [ways?_link_ne _ fun heq => hnew (List.mem_map.mpr ⟨p, hp, heq.symm⟩)]
  exact h.ends p (List.mem_cons_of_mem _ hp)

theorem ways?_fan {start finish : Nat} (hstart : id ≠ start) (hid : id ∉ parts.map (·.right)) :
    (fan start finish n parts).ways? id = n.ways? id := by
  induction parts generalizing n with
  | nil => rfl
  | cons part parts ih =>
      rw [List.map_cons, List.mem_cons, not_or] at hid
      rw [fan, ih _ hid.2, ways?_link_ne _ (Ne.symm hid.1), ways?_link_ne _ (Ne.symm hstart)]

theorem ways?_fan_start {start finish : Nat} (hstart : start ∉ parts.map (·.right))
    {greedy : Bool} {ts : List Transition} (h : n.ways? start = some (greedy, ts)) :
    (fan start finish n parts).ways? start = some (greedy, ts ++ toParts parts) := by
  induction parts generalizing n ts with
  | nil => rw [fan, h, toParts, List.map_nil, List.append_nil]
  | cons part parts ih =>
      rw [List.map_cons, List.mem_cons, not_or] at hstart
      have hlinks : ((n.link start part.left).link part.right finish).ways? start =
          some (greedy, ts ++ [.epsilon part.left]) := by
        rw [ways?_link_ne _ (Ne.symm hstart.1)]
        exact n.ways?_link_self _ h
      rw [fan, ih _ hstart.2 hlinks, List.append_assoc]
      rfl

/-- Every part of a fan leads to its end. -/
theorem ways?_fan_right {start finish : Nat} (hstart : start ∉ parts.map (·.right))
    (h : n.Loose parts) :
    ∀ p ∈ parts, (fan start finish n parts).ways? p.right = some (false, [.epsilon finish]) := by
  induction parts generalizing n with
  | nil => exact nofun
  | cons part parts ih =>
      obtain ⟨hpart, hrest⟩ := List.forall_mem_cons.mp h.ends
      obtain ⟨hnew, hnodup⟩ := List.nodup_cons.mp h.nodup
      rw [List.map_cons, List.mem_cons, not_or] at hstart
      have hfirst : (n.link start part.left).ways? part.right = some (false, []) :=
        (n.ways?_link_ne hstart.1).trans hpart
      refine List.forall_mem_cons.mpr ⟨?_, ih _ hstart.2 ⟨fun p hp => ?_, hnodup⟩⟩
      · rw [fan, ways?_fan _ (Ne.symm hstart.1) hnew]
        exact ways?_link_self _ finish hfirst
      · rw [ways?_link_ne _ fun heq => hnew (List.mem_map.mpr ⟨p, hp, heq.symm⟩),
          ways?_link_ne _ fun heq => hstart.2 (List.mem_map.mpr ⟨p, hp, heq.symm⟩)]
        exact hrest p hp

/-! ## Blocks -/

/-- A block has been put behind a network: from its start all parts lead to its end, which leads
nowhere yet. -/
structure Blocked (n after : Network) (parts : List Handle) : Prop where
  size : after.size = n.size + 2
  before : ∀ id < n.size, id ∉ parts.map (·.right) → after.ways? id = n.ways? id
  start : after.ways? n.size = some (false, toParts parts)
  rights : ∀ p ∈ parts, after.ways? p.right = some (false, [.epsilon (n.size + 1)])
  finish : after.ways? (n.size + 1) = some (false, [])

/-- A block from a state that has just been added. -/
theorem blocked_block {n m : Network} (h : n.Loose parts) (rule : Nat)
    (hsize : m.size = n.size + 1) (hbefore : ∀ id < n.size, m.ways? id = n.ways? id)
    (hstart : m.ways? n.size = some (false, [])) :
    n.Blocked (m.block rule n.size parts) parts := by
  have hmark : ∀ id, ((m.addState .blockEnd rule).modifyState n.size fun s =>
      { s with endState := some m.size }).ways? id = (m.addState .blockEnd rule).ways? id :=
    fun id => ways?_mark _ _ fun _ => ⟨rfl, rfl, rfl⟩
  have hlt : ∀ id < n.size + 1, ((m.addState .blockEnd rule).modifyState n.size fun s =>
      { s with endState := some m.size }).ways? id = m.ways? id := fun id hid => by
    rw [hmark, ways?_addState_lt _ _ _ (by omega)]
  have hloose := h.congr fun id hid => (hlt id (by omega)).trans (hbefore id hid)
  refine ⟨by rw [size_block, hsize], fun id hid hnot => ?_, ?_, fun p hp => ?_, ?_⟩
  all_goals unfold block
  · rw [ways?_fan _ (Nat.ne_of_lt hid) hnot, hlt id (by omega), hbefore id hid]
  · exact ways?_fan_start _ (h.not_mem (Nat.le_refl _)) ((hlt _ (by omega)).trans hstart)
  · rw [← hsize]
    exact ways?_fan_right _ (h.not_mem (Nat.le_refl _)) hloose p hp
  · rw [ways?_fan _ (by omega) (h.not_mem (by omega)), hmark]
    exact ways?_addState_new _ (by decide) _ hsize.symm

theorem blocked_choice {n : Network} (h : n.Loose parts) (rule token : Nat) (site : DecisionSite) :
    n.Blocked (n.choice rule token site parts) parts := by
  refine blocked_block h rule (by rw [size_decide, size_addState]) (fun id hid => ?_) ?_
  · rw [ways?_decide, ways?_addState_lt _ _ _ hid]
  · rw [ways?_decide, ways?_addState_new _ (by decide) _ rfl]

/-- A state of some kind from which parts lead to a common end, perhaps a decision. -/
def startBlock (kind : StateKind) (rule token : Nat) (site : DecisionSite)
    (parts : List Handle) : Network :=
  ((n.addState kind rule).decideAmong n.size token site parts).block rule n.size parts

theorem blocked_startBlock {n : Network} (h : n.Loose parts) {kind : StateKind}
    (hkind : kind ≠ .ruleStop) (rule token : Nat) (site : DecisionSite) :
    n.Blocked (n.startBlock kind rule token site parts) parts := by
  refine blocked_block h rule (by rw [size_decideAmong, size_addState]) (fun id hid => ?_) ?_
  · rw [ways?_decideAmong, ways?_addState_lt _ _ _ hid]
  · rw [ways?_decideAmong, ways?_addState_new _ hkind _ rfl]

/-! ## Blocks under a suffix -/

/-- An optional block differs from a block only at its start. -/
theorem ways?_optional_ne (rule token : Nat) (greedy : Bool) (hid : id ≠ n.size) :
    (n.optional rule greedy token parts).ways? id =
      (n.choice rule token .optional parts).ways? id := by
  unfold optional insertTransition
  dsimp only
  split
  · rw [ways?_link_ne _ (Ne.symm hid), ways?_modifyState_ne _ _ (Ne.symm hid)]
  · rw [ways?_modifyState_ne _ _ (Ne.symm hid), ways?_modifyState_ne _ _ (Ne.symm hid)]

theorem ways?_optional_start {n : Network} (h : n.Loose parts) (rule token : Nat)
    (greedy : Bool) :
    (n.optional rule greedy token parts).ways? n.size =
      some (!greedy, toOptional parts (n.size + 1) greedy) := by
  have hmark := ways?_modifyState_self _ (f := fun s => { s with nonGreedy := !greedy })
    (g := fun w => (!greedy, w.2)) (fun _ => ⟨rfl, rfl⟩) (blocked_choice h rule token .optional).start
  unfold optional toOptional insertTransition
  dsimp only
  cases greedy with
  | true => exact ways?_link_self _ _ hmark
  | false =>
      exact ways?_modifyState_self _ (g := fun w => (w.1, w.2.insertIdx 0 (.epsilon (n.size + 1))))
        (fun _ => ⟨rfl, rfl⟩) hmark

/-! ## Loops -/

theorem twoWays_ne {source again finish : Nat} (greedy : Bool) (hid : source ≠ id) :
    (n.twoWays source again finish greedy).ways? id = n.ways? id := by
  unfold twoWays
  split <;> rw [ways?_link_ne _ hid, ways?_link_ne _ hid]

/-- Both ways on from a loop state, in the order that the loop prefers. -/
theorem twoWays_self {reluctant : Bool} (again finish : Nat) (greedy : Bool)
    (h : n.ways? id = some (reluctant, [])) :
    (n.twoWays id again finish greedy).ways? id =
      some (reluctant, toRound again finish greedy) := by
  cases greedy with
  | true => exact ways?_link_self _ finish (n.ways?_link_self again h)
  | false => exact ways?_link_self _ again (n.ways?_link_self finish h)

section Star

variable (scope : Scope) (greedy : Bool) (token first : Nat)

theorem starStates_eq (parts : List Handle) :
    n.starStates scope greedy token first parts =
      let m := n.startBlock .starBlockStart scope.rule token .starBlock parts
      let m := (m.addState .starLoopEntry scope.rule).modifyState (n.size + 2) fun s =>
        { s with nonGreedy := !greedy, isPrecedence := scope.operatorLoop == some first }
      let m := m.decide (n.size + 2) first .starLoopEntry
      let m := (m.addState .loopEnd scope.rule).addState .starLoopBack scope.rule
      let m := m.modifyState (n.size + 2) fun s =>
        { s with loopBack := some (n.size + 4), endState := some (n.size + 3) }
      m.modifyState (n.size + 3) fun s => { s with loopBack := some (n.size + 4) } := rfl

/-- The states of a star loop before they are connected. -/
theorem ways?_starStates {n : Network} (h : n.Loose parts) :
    (∀ id < n.size + 2, (n.starStates scope greedy token first parts).ways? id =
      (n.startBlock .starBlockStart scope.rule token .starBlock parts).ways? id) ∧
      (n.starStates scope greedy token first parts).ways? (n.size + 2) = some (!greedy, []) ∧
      (n.starStates scope greedy token first parts).ways? (n.size + 3) = some (false, []) ∧
      (n.starStates scope greedy token first parts).ways? (n.size + 4) = some (false, []) := by
  have hsize := (@blocked_startBlock _ _ h .starBlockStart nofun scope.rule token .starBlock).size
  rw [starStates_eq]
  dsimp only
  generalize n.startBlock .starBlockStart scope.rule token .starBlock parts = m at hsize ⊢
  have hmarks : ∀ (w : Network) (id : Nat),
      ((w.modifyState (n.size + 2) fun s => { s with
        loopBack := some (n.size + 4), endState := some (n.size + 3) }).modifyState (n.size + 3)
        fun s => { s with loopBack := some (n.size + 4) }).ways? id = w.ways? id := by
    intro w id
    rw [ways?_mark, ways?_mark]
    all_goals exact fun _ => ⟨rfl, rfl, rfl⟩
  have hentry : (((m.addState .starLoopEntry scope.rule).modifyState (n.size + 2) fun s =>
      { s with nonGreedy := !greedy, isPrecedence := scope.operatorLoop == some first }).decide
      (n.size + 2) first .starLoopEntry).size = n.size + 3 := by
    rw [size_decide, size_modifyState, size_addState, hsize]
  refine ⟨fun id hid => ?_, ?_, ?_, ?_⟩
  · rw [hmarks, ways?_addState_lt _ _ _ (by rw [size_addState]; omega),
      ways?_addState_lt _ _ _ (by omega), ways?_decide, ways?_modifyState_ne _ _ (by omega),
      ways?_addState_lt _ _ _ (by omega)]
  · rw [hmarks, ways?_addState_lt _ _ _ (by rw [size_addState]; omega),
      ways?_addState_lt _ _ _ (by omega), ways?_decide]
    exact ways?_modifyState_self _ (g := fun w => (!greedy, w.2)) (fun _ => ⟨rfl, rfl⟩)
      (m.ways?_addState_new (by decide) _ hsize.symm)
  · rw [hmarks, ways?_addState_lt _ _ _ (by rw [size_addState]; omega),
      ways?_addState_new _ (by decide) _ hentry.symm]
  · rw [hmarks, ways?_addState_new _ (by decide) _ (by rw [size_addState, hentry])]

/-- A star loop has been put behind a network. -/
structure Starred (n after : Network) (parts : List Handle) (greedy : Bool) : Prop where
  size : after.size = n.size + 5
  before : ∀ id < n.size, id ∉ parts.map (·.right) → after.ways? id = n.ways? id
  start : after.ways? n.size = some (false, toParts parts)
  rights : ∀ p ∈ parts, after.ways? p.right = some (false, [.epsilon (n.size + 1)])
  blockEnd : after.ways? (n.size + 1) = some (false, [.epsilon (n.size + 4)])
  entry : after.ways? (n.size + 2) = some (!greedy, toRound n.size (n.size + 3) greedy)
  finish : after.ways? (n.size + 3) = some (false, [])
  back : after.ways? (n.size + 4) = some (false, [.epsilon (n.size + 2)])

theorem starred_star {n : Network} (h : n.Loose parts) :
    n.Starred (n.star scope greedy token first parts) parts greedy := by
  have hblock := @blocked_startBlock _ _ h .starBlockStart nofun scope.rule token .starBlock
  obtain ⟨hlt, hentry, hfinish, hback⟩ := ways?_starStates scope greedy token first h
  refine ⟨n.size_star .., fun id hid hnot => ?_, ?_, fun p hp => ?_, ?_, ?_, ?_, ?_⟩
  all_goals
    unfold star
    dsimp only
    generalize n.starStates scope greedy token first parts = m at hlt hentry hfinish hback ⊢
  · rw [ways?_link_ne _ (by omega), ways?_link_ne _ (by omega), twoWays_ne _ _ (by omega),
      hlt id (by omega), hblock.before id hid hnot]
  · rw [ways?_link_ne _ (by omega), ways?_link_ne _ (by omega), twoWays_ne _ _ (by omega),
      hlt _ (by omega), hblock.start]
  · have hp' := h.right_lt p hp
    rw [ways?_link_ne _ (by omega), ways?_link_ne _ (by omega), twoWays_ne _ _ (by omega),
      hlt _ (by omega), hblock.rights p hp]
  · rw [ways?_link_ne _ (by omega)]
    refine ways?_link_first _ _ ?_
    rw [twoWays_ne _ _ (by omega), hlt _ (by omega), hblock.finish]
  · rw [ways?_link_ne _ (by omega), ways?_link_ne _ (by omega)]
    exact twoWays_self _ _ _ _ hentry
  · rw [ways?_link_ne _ (by omega), ways?_link_ne _ (by omega), twoWays_ne _ _ (by omega), hfinish]
  · refine ways?_link_first _ _ ?_
    rw [ways?_link_ne _ (by omega), twoWays_ne _ _ (by omega), hback]

end Star

section Plus

variable (scope : Scope) (greedy : Bool) (token first : Nat)

theorem plusStates_eq (parts : List Handle) :
    n.plusStates scope greedy token first parts =
      let m := n.startBlock .plusBlockStart scope.rule token .plusBlock parts
      let m := (m.addState .plusLoopBack scope.rule).modifyState (n.size + 2) fun s =>
        { s with nonGreedy := !greedy }
      let m := (m.decide (n.size + 2) first .plusLoopBack).addState .loopEnd scope.rule
      let m := m.modifyState n.size fun s => { s with loopBack := some (n.size + 2) }
      let m := m.modifyState (n.size + 3) fun s => { s with loopBack := some (n.size + 2) }
      m.modifyState (n.size + 2) fun s => { s with endState := some (n.size + 3) } := rfl

/-- The states of a plus loop before they are connected. -/
theorem ways?_plusStates {n : Network} (h : n.Loose parts) :
    (∀ id < n.size + 2, (n.plusStates scope greedy token first parts).ways? id =
      (n.startBlock .plusBlockStart scope.rule token .plusBlock parts).ways? id) ∧
      (n.plusStates scope greedy token first parts).ways? (n.size + 2) = some (!greedy, []) ∧
      (n.plusStates scope greedy token first parts).ways? (n.size + 3) = some (false, []) := by
  have hsize := (@blocked_startBlock _ _ h .plusBlockStart nofun scope.rule token .plusBlock).size
  rw [plusStates_eq]
  dsimp only
  generalize n.startBlock .plusBlockStart scope.rule token .plusBlock parts = m at hsize ⊢
  have hmarks : ∀ (w : Network) (id : Nat), (((w.modifyState n.size fun s => { s with
      loopBack := some (n.size + 2) }).modifyState (n.size + 3) fun s => { s with
      loopBack := some (n.size + 2) }).modifyState (n.size + 2) fun s => { s with
      endState := some (n.size + 3) }).ways? id = w.ways? id := by
    intro w id
    rw [ways?_mark, ways?_mark, ways?_mark]
    all_goals exact fun _ => ⟨rfl, rfl, rfl⟩
  have hback : (((m.addState .plusLoopBack scope.rule).modifyState (n.size + 2) fun s =>
      { s with nonGreedy := !greedy }).decide (n.size + 2) first .plusLoopBack).size =
      n.size + 3 := by
    rw [size_decide, size_modifyState, size_addState, hsize]
  refine ⟨fun id hid => ?_, ?_, ?_⟩
  · rw [hmarks, ways?_addState_lt _ _ _ (by omega), ways?_decide, ways?_modifyState_ne _ _ (by omega),
      ways?_addState_lt _ _ _ (by omega)]
  · rw [hmarks, ways?_addState_lt _ _ _ (by omega), ways?_decide]
    exact ways?_modifyState_self _ (g := fun w => (!greedy, w.2)) (fun _ => ⟨rfl, rfl⟩)
      (m.ways?_addState_new (by decide) _ hsize.symm)
  · rw [hmarks, ways?_addState_new _ (by decide) _ hback.symm]

structure Plussed (n after : Network) (parts : List Handle) (greedy : Bool) : Prop where
  size : after.size = n.size + 4
  before : ∀ id < n.size, id ∉ parts.map (·.right) → after.ways? id = n.ways? id
  start : after.ways? n.size = some (false, toParts parts)
  rights : ∀ p ∈ parts, after.ways? p.right = some (false, [.epsilon (n.size + 1)])
  blockEnd : after.ways? (n.size + 1) = some (false, [.epsilon (n.size + 2)])
  back : after.ways? (n.size + 2) = some (!greedy, toRound n.size (n.size + 3) greedy)
  finish : after.ways? (n.size + 3) = some (false, [])

theorem plussed_plus {n : Network} (h : n.Loose parts) :
    n.Plussed (n.plus scope greedy token first parts) parts greedy := by
  have hblock := @blocked_startBlock _ _ h .plusBlockStart nofun scope.rule token .plusBlock
  obtain ⟨hlt, hback, hfinish⟩ := ways?_plusStates scope greedy token first h
  refine ⟨n.size_plus .., fun id hid hnot => ?_, ?_, fun p hp => ?_, ?_, ?_, ?_⟩
  all_goals
    unfold plus
    dsimp only
    generalize n.plusStates scope greedy token first parts = m at hlt hback hfinish ⊢
  · rw [twoWays_ne _ _ (by omega), ways?_link_ne _ (by omega), hlt id (by omega),
      hblock.before id hid hnot]
  · rw [twoWays_ne _ _ (by omega), ways?_link_ne _ (by omega), hlt _ (by omega), hblock.start]
  · have hp' := h.right_lt p hp
    rw [twoWays_ne _ _ (by omega), ways?_link_ne _ (by omega), hlt _ (by omega),
      hblock.rights p hp]
  · rw [twoWays_ne _ _ (by omega)]
    exact ways?_link_first _ _ ((hlt _ (by omega)).trans hblock.finish)
  · refine twoWays_self _ _ _ _ ?_
    rw [ways?_link_ne _ (by omega), hback]
  · rw [twoWays_ne _ _ (by omega), ways?_link_ne _ (by omega), hfinish]

end Plus

end Ways

end Network

end GrammarCompiler
