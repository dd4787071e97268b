import GrammarCompiler.Analysis
import GrammarCompiler.Proofs.Network.Search

/-!
# Lookahead that can be computed

A search remembers the places it has entered in a hash table. How its keys are hashed is not
known to a proof, so the lookahead of a network cannot be computed in one. But all that a search asks
is whether a place has been entered. So the same search with a list of places finds the same
(`lookListed_eq`, `lookAtListed_eq`).
-/

namespace GrammarCompiler

namespace Network

/-- What a search has found, with a list of the places that were entered. -/
structure Listing where
  look : IntervalSet := .empty
  busy : List (Nat × List Nat) := []

/-- Does with one transition of a state what `visitStep` does. -/
def stepListed (network : Network) (mode : LookMode)
    (visit : Nat → List Nat → List Nat → Listing → Listing) (stack called : List Nat)
    (listing : Listing) (t : Transition) : Listing :=
  match t with
  | .rule target rule _ follow =>
    if called.contains rule then listing
    else visit target (follow :: stack) (rule :: called) listing
  | t =>
    if t.isPredicate && !mode.throughPredicates then
      { listing with look := listing.look.add Symbol.invalid }
    else if t.isEpsilon then visit t.target stack called listing
    else { listing with look := listing.look.addAll (network.readBy t) }

def visitListed (network : Network) (mode : LookMode) :
    Nat → Nat → List Nat → List Nat → Listing → Listing
  | 0, _, _, _, listing => listing
  | fuel + 1, id, stack, called, listing =>
    if listing.busy.contains (id, stack) then listing
    else
      let listing := { listing with busy := (id, stack) :: listing.busy }
      match network.state? id with
      | none => listing
      | some state =>
        match mode.ending? id state stack with
        | some symbol => { listing with look := listing.look.add symbol }
        | none =>
          let step := network.stepListed mode (visitListed network mode fuel) stack called
          match stack with
          | back :: outer =>
            if state.kind = .ruleStop then
              visitListed network mode fuel back outer (called.erase state.rule) listing
            else state.transitions.foldl step listing
          | [] => state.transitions.foldl step listing

/-- Two searches have found the same, and have entered the same places. -/
structure Search.Agrees (search : Search) (listing : Listing) : Prop where
  look : search.look = listing.look
  busy : ∀ place, search.busy.contains place = listing.busy.contains place

section Agrees

variable {search : Search} {listing : Listing}

theorem Search.Agrees.add (h : search.Agrees listing) (symbol : Int) :
    (search.add symbol).Agrees { listing with look := listing.look.add symbol } :=
  ⟨congrArg (·.add symbol) h.look, h.busy⟩

theorem Search.Agrees.addAll (h : search.Agrees listing) (symbols : IntervalSet) :
    (search.addAll symbols).Agrees { listing with look := listing.look.addAll symbols } :=
  ⟨congrArg (·.addAll symbols) h.look, h.busy⟩

theorem Search.Agrees.enter (h : search.Agrees listing) (place : Nat × List Nat) :
    Search.Agrees { search with busy := search.busy.insert place }
      { listing with busy := place :: listing.busy } := by
  refine ⟨h.look, fun other => ?_⟩
  rw [Std.HashSet.contains_insert, h.busy, List.contains_cons, Bool.beq_comm]

theorem agrees_step {network : Network} {mode : LookMode} {fuel : Nat}
    (ih : ∀ {search : Search} {listing : Listing} (id : Nat) (stack called : List Nat),
      search.Agrees listing → (network.visit mode fuel id stack called search).Agrees
        (network.visitListed mode fuel id stack called listing))
    (stack called : List Nat) (h : search.Agrees listing) (t : Transition) :
    (network.visitStep mode fuel stack called search t).Agrees
      (network.stepListed mode (network.visitListed mode fuel) stack called listing t) := by
  cases t with
  | rule target rule precedence follow =>
      unfold visitStep stepListed
      dsimp only
      split
      · exact h
      · exact ih target (follow :: stack) (rule :: called) h
  | _ =>
      unfold visitStep stepListed
      dsimp only
      split
      · exact h.add Symbol.invalid
      · split
        · exact ih _ stack called h
        · exact h.addAll _

/-- Both searches do the same with a place. -/
theorem agrees_visit (network : Network) (mode : LookMode) (fuel id : Nat)
    (stack called : List Nat) (h : search.Agrees listing) :
    (network.visit mode fuel id stack called search).Agrees
      (network.visitListed mode fuel id stack called listing) := by
  induction fuel generalizing id stack called search listing with
  | zero => exact h
  | succ fuel ih =>
      rw [visit_succ, visitListed, h.busy]
      split
      · exact h
      · have hentered := h.enter (id, stack)
        have hgoOn := fun state : State => List.foldl_rel (r := Search.Agrees) hentered
          fun t (_ : t ∈ state.transitions) _ _ h => agrees_step ih stack called h t
        dsimp only
        cases network.state? id with
        | none => exact ⟨hentered.look, hentered.busy⟩
        | some state =>
            dsimp only
            cases mode.ending? id state stack with
            | some symbol => exact hentered.add symbol
            | none =>
                cases stack with
                | nil => exact hgoOn state
                | cons back outer =>
                    unfold visitState
                    dsimp only
                    split
                    · exact ih back outer (called.erase state.rule) hentered
                    · exact hgoOn state

end Agrees

/-- The symbols behind a state with unknown callers, computed with lists. -/
def lookListed (network : Network) (id : Nat) : IntervalSet :=
  (network.visitListed (followMode none false) (network.visitBound []) id [] [] {}).look

theorem agrees_searchFrom (network : Network) (mode : LookMode) (id : Nat) :
    (network.searchFrom mode id []).Agrees
      (network.visitListed mode (network.visitBound []) id [] [] {}) :=
  agrees_visit network mode (network.visitBound []) id [] []
    ⟨rfl, fun _ => Std.HashSet.contains_empty⟩

theorem lookListed_eq (network : Network) (id : Nat) :
    network.lookListed id = network.look id none none :=
  (agrees_searchFrom network (followMode none false) id).look.symm

/-- The lookahead of an alternative that begins in a state. -/
def alternativeListed? (network : Network) (id : Nat) : Option IntervalSet :=
  let look := (network.visitListed decisionMode (network.visitBound []) id [] [] {}).look
  if look.isEmpty || look.contains Symbol.invalid then none else some look

def lookAtListed (network : Network) (id : Nat) : IntervalSet.Look :=
  match network.state? id with
  | some state =>
    if state.nonGreedy then List.replicate (state.transitions.length + 1) none
    else state.transitions.map fun t => network.alternativeListed? t.target
  | none => []

theorem lookAtListed_eq (network : Network) : network.lookAtListed = network.lookAt := by
  have halternative : ∀ id,
      network.alternativeListed? id = (network.searchFrom decisionMode id []).alternative? := by
    intro id
    unfold alternativeListed? Search.alternative?
    rw [(agrees_searchFrom network decisionMode id).look]
  funext id
  unfold lookAtListed lookAt decisionLook decisionSearches
  cases network.state? id with
  | none => rfl
  | some state =>
      simp only [halternative, Option.map_some, Option.getD_some, List.map_map, Function.comp_def]

end Network

end GrammarCompiler
