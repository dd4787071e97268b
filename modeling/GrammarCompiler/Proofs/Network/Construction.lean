import GrammarCompiler.Network.Build

/-!
# What a construction makes

The steps of the construction as functions on networks. A part is put together from states that
come behind those there are, so the numbers of its states are known from the size of the network
before. Each equation says which part comes of a step, and which network.
-/

namespace GrammarCompiler

namespace Network

variable (network : Network)

/-! ## Networks -/

def link (source target : Nat) : Network :=
  network.addTransition source (.epsilon target)

def decide (id token : Nat) (site : DecisionSite) : Network :=
  ((network.modifyState id fun s => { s with token := some token }).addDecision id).addSite
    token site network.decisionCount

/-- Makes a state the decision between parts, if there is more than one of them. -/
def decideAmong (id token : Nat) (site : DecisionSite) (parts : List Handle) : Network :=
  if 1 < parts.length then network.decide id token site else network

def single (rule : Nat) (t : Transition) : Network :=
  ((network.addState .basic rule).addState .basic rule).addTransition network.size t

def chain : Network → List Handle → Network
  | network, [] | network, [_] => network
  | network, a :: b :: rest => chain (network.link a.right b.left) (b :: rest)

/-- Links from one state to parts and from them to another. -/
def fan (start finish : Nat) : Network → List Handle → Network
  | network, [] => network
  | network, part :: parts =>
    fan start finish ((network.link start part.left).link part.right finish) parts

/-- The end of a block and the links to parts. -/
def block (rule start : Nat) (parts : List Handle) : Network :=
  ((network.addState .blockEnd rule).modifyState start fun s =>
    { s with endState := some network.size }).fan start network.size parts

def choice (rule token : Nat) (site : DecisionSite) (parts : List Handle) : Network :=
  ((network.addState .basicBlockStart rule).decide network.size token site).block rule
    network.size parts

def twoWays (id again finish : Nat) (greedy : Bool) : Network :=
  if greedy then (network.link id again).link id finish
  else (network.link id finish).link id again

def optional (rule : Nat) (greedy : Bool) (token : Nat) (parts : List Handle) : Network :=
  let start := network.size
  let network := (network.choice rule token .optional parts).modifyState start fun s =>
    { s with nonGreedy := !greedy }
  if greedy then network.link start (start + 1)
  else network.insertTransition start 0 (.epsilon (start + 1))

/-- The states of a star loop, without what connects them. -/
def starStates (scope : Scope) (greedy : Bool) (token first : Nat) (parts : List Handle) :
    Network :=
  let start := network.size
  let network := (network.addState .starBlockStart scope.rule).decideAmong start token .starBlock
    parts
  let network := (network.block scope.rule start parts).addState .starLoopEntry scope.rule
  let network := network.modifyState (start + 2) fun s =>
    { s with nonGreedy := !greedy, isPrecedence := scope.operatorLoop == some first }
  let network := network.decide (start + 2) first .starLoopEntry
  let network := (network.addState .loopEnd scope.rule).addState .starLoopBack scope.rule
  let network := network.modifyState (start + 2) fun s =>
    { s with loopBack := some (start + 4), endState := some (start + 3) }
  network.modifyState (start + 3) fun s => { s with loopBack := some (start + 4) }

def star (scope : Scope) (greedy : Bool) (token first : Nat) (parts : List Handle) : Network :=
  let start := network.size
  let network := network.starStates scope greedy token first parts
  let network := network.twoWays (start + 2) start (start + 3) greedy
  (network.link (start + 1) (start + 4)).link (start + 4) (start + 2)

/-- The states of a plus loop, without what connects them. -/
def plusStates (scope : Scope) (greedy : Bool) (token first : Nat) (parts : List Handle) :
    Network :=
  let start := network.size
  let network := (network.addState .plusBlockStart scope.rule).decideAmong start token .plusBlock
    parts
  let network := (network.block scope.rule start parts).addState .plusLoopBack scope.rule
  let network := network.modifyState (start + 2) fun s => { s with nonGreedy := !greedy }
  let network := (network.decide (start + 2) first .plusLoopBack).addState .loopEnd scope.rule
  let network := network.modifyState start fun s => { s with loopBack := some (start + 2) }
  let network := network.modifyState (start + 3) fun s => { s with loopBack := some (start + 2) }
  network.modifyState (start + 2) fun s => { s with endState := some (start + 3) }

def plus (scope : Scope) (greedy : Bool) (token first : Nat) (parts : List Handle) : Network :=
  let start := network.size
  let network := network.plusStates scope greedy token first parts
  (network.link (start + 1) (start + 2)).twoWays (start + 2) start (start + 3) greedy

/-! ## Sizes -/

@[simp]
theorem size_link (source target : Nat) : (network.link source target).size = network.size :=
  size_modifyState ..

@[simp]
theorem size_decide (id token : Nat) (site : DecisionSite) :
    (network.decide id token site).size = network.size := by
  unfold decide addSite addDecision
  simp only [size, modifyState, Array.size_modify]

@[simp]
theorem size_decideAmong (id token : Nat) (site : DecisionSite) (parts : List Handle) :
    (network.decideAmong id token site parts).size = network.size := by
  unfold decideAmong
  split
  · exact size_decide ..
  · rfl

@[simp]
theorem size_addTransition (id : Nat) (t : Transition) :
    (network.addTransition id t).size = network.size :=
  size_modifyState ..

@[simp]
theorem size_insertTransition (id index : Nat) (t : Transition) :
    (network.insertTransition id index t).size = network.size :=
  size_modifyState ..

@[simp]
theorem size_single (rule : Nat) (t : Transition) :
    (network.single rule t).size = network.size + 2 := by
  unfold single
  rw [size_addTransition, size_addState, size_addState]

@[simp]
theorem size_chain (parts : List Handle) : (network.chain parts).size = network.size := by
  induction parts generalizing network with
  | nil => rfl
  | cons a rest ih =>
      cases rest with
      | nil => rfl
      | cons b rest => exact (ih _).trans (network.size_link ..)

@[simp]
theorem size_fan (start finish : Nat) (parts : List Handle) :
    (fan start finish network parts).size = network.size := by
  induction parts generalizing network with
  | nil => rfl
  | cons part parts ih =>
      unfold fan
      rw [ih, size_link, size_link]

@[simp]
theorem size_block (rule start : Nat) (parts : List Handle) :
    (network.block rule start parts).size = network.size + 1 := by
  unfold block
  rw [size_fan, size_modifyState, size_addState]

@[simp]
theorem size_choice (rule token : Nat) (site : DecisionSite) (parts : List Handle) :
    (network.choice rule token site parts).size = network.size + 2 := by
  unfold choice
  rw [size_block, size_decide, size_addState]

@[simp]
theorem size_twoWays (id again finish : Nat) (greedy : Bool) :
    (network.twoWays id again finish greedy).size = network.size := by
  unfold twoWays
  split <;> rw [size_link, size_link]

@[simp]
theorem size_optional (rule : Nat) (greedy : Bool) (token : Nat) (parts : List Handle) :
    (network.optional rule greedy token parts).size = network.size + 2 := by
  unfold optional
  simp only
  split
  · rw [size_link, size_modifyState, size_choice]
  · rw [size_insertTransition, size_modifyState, size_choice]

@[simp]
theorem size_starStates (scope : Scope) (greedy : Bool) (token first : Nat)
    (parts : List Handle) :
    (network.starStates scope greedy token first parts).size = network.size + 5 := by
  simp [starStates, size_modifyState, size_addState]

@[simp]
theorem size_star (scope : Scope) (greedy : Bool) (token first : Nat) (parts : List Handle) :
    (network.star scope greedy token first parts).size = network.size + 5 := by
  simp [star]

@[simp]
theorem size_plusStates (scope : Scope) (greedy : Bool) (token first : Nat)
    (parts : List Handle) :
    (network.plusStates scope greedy token first parts).size = network.size + 4 := by
  simp [plusStates, size_modifyState, size_addState]

@[simp]
theorem size_plus (scope : Scope) (greedy : Bool) (token first : Nat) (parts : List Handle) :
    (network.plus scope greedy token first parts).size = network.size + 4 := by
  simp [plus]

/-! ## Steps -/

section Run

open Build

variable (scope : Scope) (b : Builder)

def Builder.withNetwork (b : Builder) (network : Network) : Builder :=
  { b with network }

@[simp]
theorem network_withNetwork (network : Network) : (b.withNetwork network).network = network := rfl

@[simp]
theorem withNetwork_withNetwork (network network' : Network) :
    (b.withNetwork network).withNetwork network' = b.withNetwork network' := rfl

theorem run_bind {α β : Type} (m : Build α) (f : α → Build β) :
    (m >>= f).run b = (f (m.run b).1).run (m.run b).2 := rfl

theorem run_pure {α : Type} (a : α) : (pure a : Build α).run b = (a, b) := rfl

theorem run_update (f : Network → Network) :
    (update f).run b = ((), b.withNetwork (f b.network)) := rfl

theorem run_state (kind : StateKind) :
    (state scope kind).run b =
      (b.network.size, b.withNetwork (b.network.addState kind scope.rule)) := rfl

theorem run_single (make : Nat → Transition) :
    (Build.single scope make).run b =
      (⟨b.network.size, b.network.size + 1⟩,
        b.withNetwork (b.network.single scope.rule (make (b.network.size + 1)))) := by
  rw [← size_addState b.network .basic scope.rule]
  rfl

theorem run_chain (parts : List Handle) :
    (Build.chain parts).run b = ((), b.withNetwork (b.network.chain parts)) := by
  induction parts generalizing b with
  | nil => rfl
  | cons p rest ih =>
      cases rest with
      | nil => rfl
      | cons q rest => exact ih (b.withNetwork (b.network.link p.right q.left))

theorem run_fan (start finish : Nat) (parts : List Handle) :
    (Build.fan start finish parts).run b =
      ((), b.withNetwork (fan start finish b.network parts)) := by
  induction parts generalizing b with
  | nil => rfl
  | cons part parts ih =>
      exact ih (b.withNetwork ((b.network.link start part.left).link part.right finish))

theorem run_block (start : Nat) (parts : List Handle) :
    (Build.block scope start parts).run b =
      (⟨start, b.network.size⟩, b.withNetwork (b.network.block scope.rule start parts)) := by
  unfold Build.block
  simp only [StateT.run_bind, run_fan, run_state]
  rfl

theorem run_decision (id token : Nat) (site : DecisionSite) :
    (decision id token site).run b = ((), b.withNetwork (b.network.decide id token site)) := rfl

theorem run_choice {parts : List Handle} (h : parts.length ≠ 1) (token : Nat)
    (site : DecisionSite) :
    (Build.choice scope token site parts).run b =
      (⟨b.network.size, b.network.size + 1⟩,
        b.withNetwork (b.network.choice scope.rule token site parts)) := by
  unfold Build.choice
  split
  · exact absurd rfl h
  · simp only [run_bind, run_state, run_decision, run_block, network_withNetwork,
      withNetwork_withNetwork, size_decide, size_addState]
    rfl

theorem run_twoWays (id again finish : Nat) (greedy : Bool) :
    (Build.twoWays id again finish greedy).run b =
      ((), b.withNetwork (b.network.twoWays id again finish greedy)) := by
  cases greedy <;> rfl

theorem run_optional (greedy : Bool) (token : Nat) (parts : List Handle) :
    (Build.optional scope greedy token parts).run b =
      (⟨b.network.size, b.network.size + 1⟩,
        b.withNetwork (b.network.optional scope.rule greedy token parts)) := by
  unfold Build.optional
  cases greedy <;>
    · simp only [run_bind, run_state, run_decision, run_block, network_withNetwork,
        withNetwork_withNetwork, size_decide, size_addState]
      rfl

theorem run_star (greedy : Bool) (token first : Nat) (parts : List Handle) :
    (Build.star scope greedy token first parts).run b =
      (⟨b.network.size + 2, b.network.size + 3⟩,
        b.withNetwork (b.network.star scope greedy token first parts)) := by
  unfold Build.star star starStates decideAmong
  by_cases h : 1 < parts.length <;>
    · simp only [h, if_true, if_false, run_bind, run_state, run_block, run_twoWays, run_decision,
        alter, Build.link, Build.transition, run_update, run_pure, network_withNetwork,
        withNetwork_withNetwork, size_decide, size_block, size_addState, size_modifyState]
      rfl

theorem run_plus (greedy : Bool) (token first : Nat) (parts : List Handle) :
    (Build.plus scope greedy token first parts).run b =
      (⟨b.network.size, b.network.size + 3⟩,
        b.withNetwork (b.network.plus scope greedy token first parts)) := by
  unfold Build.plus plus plusStates decideAmong
  by_cases h : 1 < parts.length <;>
    · simp only [h, if_true, if_false, run_bind, run_state, run_block, run_twoWays, run_decision,
        alter, Build.link, Build.transition, run_update, run_pure, network_withNetwork,
        withNetwork_withNetwork, size_decide, size_block, size_addState, size_modifyState]
      rfl

theorem run_sequence {parts : List Handle} {first last : Handle}
    (hfirst : parts.head? = some first) (hlast : parts.getLast? = some last) :
    (Build.sequence scope parts).run b =
      (⟨first.left, last.right⟩, b.withNetwork (b.network.chain parts)) := by
  unfold Build.sequence
  rw [hfirst, hlast]
  simp only [run_bind, run_chain, run_pure]

theorem run_sequence_nil :
    (Build.sequence scope []).run b =
      (⟨b.network.size, b.network.size + 1⟩,
        b.withNetwork (b.network.single scope.rule (.epsilon (b.network.size + 1)))) :=
  run_single scope b .epsilon

end Run

end Network

end GrammarCompiler
