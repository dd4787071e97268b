import GrammarCompiler.Proofs.Network.Ruled
import Mathlib.Data.Finset.Prod
import Mathlib.Data.Finset.Card

/-!
# The search for lookahead

A search notes what there is to note at the configurations it comes to, and nothing else
(`look_searchFrom`). It enters no configuration twice, and no rule that is being called. The former
loses nothing because what was entered earlier is followed there. The latter never comes up: a
rule that is called while it is being called would be left-recursive, as the stack tells
(`Nested`).

Only finitely many configurations can come up, since without left recursion a stack is no longer
than there are calls. The bound for the fuel counts them.

The searches differ in where they end and whether they pass predicates. The search for an
alternative comes to the configurations that the network steps to, so it notes what is shown behind
the alternative (`mem_searchFrom`).
-/

namespace GrammarCompiler

/-- Where the caller goes on after a call. -/
def Transition.follow? : Transition → Option Nat
  | .rule _ _ _ follow => some follow
  | _ => none

/-- The rule that a transition calls, by its number. -/
def Transition.called? : Transition → Option Nat
  | .rule _ callee _ _ => some callee
  | _ => none

namespace Network

/-! ## The configurations that can come up -/

def follows (network : Network) : Finset Nat :=
  (network.transitions.filterMap Transition.follow?).toFinset

def calledRules (network : Network) : Finset Nat :=
  (network.transitions.filterMap Transition.called?).toFinset

/-- The states that a search from `start` can come to. -/
def places (network : Network) (start : Nat) : Finset Nat :=
  insert start ((network.transitions.map Transition.target).toFinset ∪ network.follows)

/-- The stacks of at most so many states. -/
def stacksUpTo (states : Finset Nat) : Nat → Finset (List Nat)
  | 0 => {[]}
  | depth + 1 => insert [] ((states ×ˢ stacksUpTo states depth).image fun p => p.1 :: p.2)

theorem mem_stacksUpTo {states : Finset Nat} :
    ∀ {depth : Nat} {stack : List Nat}, (∀ x ∈ stack, x ∈ states) → stack.length ≤ depth →
      stack ∈ stacksUpTo states depth
  | 0, [], _, _ => Finset.mem_singleton_self _
  | _ + 1, [], _, _ => Finset.mem_insert_self _ _
  | depth + 1, x :: stack, hx, hlen => by
      obtain ⟨hx, hstack⟩ := List.forall_mem_cons.mp hx
      have hrest := mem_stacksUpTo hstack (Nat.le_of_succ_le_succ hlen)
      refine Finset.mem_insert_of_mem (Finset.mem_image.mpr ⟨(x, stack), ?_, rfl⟩)
      exact Finset.mem_product.mpr ⟨hx, hrest⟩

theorem card_stacksUpTo_le {states : Finset Nat} {count : Nat} (h : states.card ≤ count)
    (depth : Nat) : (stacksUpTo states depth).card ≤ (count + 1) ^ depth := by
  induction depth with
  | zero => simp [stacksUpTo]
  | succ depth ih =>
      have himage : ((states ×ˢ stacksUpTo states depth).image fun p => p.1 :: p.2).card ≤
          count * (count + 1) ^ depth :=
        Finset.card_image_le.trans (by rw [Finset.card_product]; exact Nat.mul_le_mul h ih)
      have hpos : 0 < (count + 1) ^ depth := Nat.pow_pos (Nat.succ_pos count)
      calc (stacksUpTo states (depth + 1)).card
          ≤ ((states ×ˢ stacksUpTo states depth).image fun p => p.1 :: p.2).card + 1 :=
            Finset.card_insert_le _ _
        _ ≤ (count + 1) * (count + 1) ^ depth := by rw [Nat.add_mul]; omega
        _ = (count + 1) ^ (depth + 1) := by rw [Nat.pow_succ, Nat.mul_comm]

/-- A field that only calls have is found at most once for each call. -/
theorem card_calls_le (network : Network) {field? : Transition → Option Nat}
    (h : ∀ t, t.isCall = false → field? t = none) :
    (network.transitions.filterMap field?).toFinset.card ≤ network.callCount := by
  refine (List.toFinset_card_le _).trans ?_
  rw [callCount_eq]
  induction network.transitions with
  | nil => exact Nat.le_refl _
  | cons t ts ih =>
      rw [List.countP_cons]
      cases hcall : t.isCall with
      | false =>
          rw [List.filterMap_cons_none (h t hcall)]
          simpa using ih
      | true =>
          have hcons : (List.filterMap field? (t :: ts)).length ≤
              (List.filterMap field? ts).length + 1 := by
            rw [List.filterMap_cons]
            split <;> simp
          simp only [if_true]
          omega

theorem card_follows_le (network : Network) : network.follows.card ≤ network.callCount :=
  network.card_calls_le fun t h => by cases t <;> first | rfl | cases h

theorem card_calledRules_le (network : Network) :
    network.calledRules.card ≤ network.callCount :=
  network.card_calls_le fun t h => by cases t <;> first | rfl | cases h

theorem card_places_le (network : Network) (start : Nat) :
    (network.places start).card ≤ network.transitions.length + network.callCount + 1 := by
  have h1 : (network.transitions.map Transition.target).toFinset.card ≤
      network.transitions.length :=
    (List.toFinset_card_le _).trans (by rw [List.length_map])
  have h2 := network.card_follows_le
  have h3 := Finset.card_union_le (network.transitions.map Transition.target).toFinset
    network.follows
  have h4 := Finset.card_insert_le start
    ((network.transitions.map Transition.target).toFinset ∪ network.follows)
  unfold places
  omega

/-- The configurations that a search from `start` without a stack can come to. -/
def configs (network : Network) (start : Nat) : Finset Config :=
  network.places start ×ˢ stacksUpTo network.follows network.callCount

theorem card_configs_lt (network : Network) (start : Nat) :
    (network.configs start).card < network.visitBound [] := by
  have h := Nat.mul_le_mul (network.card_places_le start)
    (card_stacksUpTo_le network.card_follows_le network.callCount)
  unfold configs visitBound
  rw [Finset.card_product]
  simpa using Nat.lt_succ_of_le h

/-! ## Steps of the search -/

/-- What a search does with one transition of a state. -/
def visitStep (network : Network) (mode : LookMode) (fuel : Nat) (stack called : List Nat)
    (search : Search) (t : Transition) : Search :=
  match t with
  | .rule target rule _ follow =>
    if called.contains rule then search
    else network.visit mode fuel target (follow :: stack) (rule :: called) search
  | t =>
    if t.isPredicate && !mode.throughPredicates then search.add Symbol.invalid
    else if t.isEpsilon then network.visit mode fuel t.target stack called search
    else search.addAll (network.readBy t)

theorem visitStep_of_not_call {t : Transition} (h : t.isCall = false) (network : Network)
    (mode : LookMode) (fuel : Nat) (stack called : List Nat) (search : Search) :
    network.visitStep mode fuel stack called search t =
      if t.isPredicate && !mode.throughPredicates then search.add Symbol.invalid
      else if t.isEpsilon then network.visit mode fuel t.target stack called search
      else search.addAll (network.readBy t) := by
  cases t with
  | rule _ _ _ _ => cases h
  | _ => rfl

/-- How a search goes on from a state that it has entered. -/
def visitState (network : Network) (mode : LookMode) (fuel : Nat) (state : State)
    (stack called : List Nat) (search : Search) : Search :=
  match stack with
  | back :: outer =>
    if state.kind = .ruleStop then
      network.visit mode fuel back outer (called.erase state.rule) search
    else state.transitions.foldl (network.visitStep mode fuel stack called) search
  | [] => state.transitions.foldl (network.visitStep mode fuel stack called) search

theorem visit_succ (network : Network) (mode : LookMode) (fuel id : Nat)
    (stack called : List Nat) (search : Search) :
    network.visit mode (fuel + 1) id stack called search =
      if search.busy.contains (id, stack) then search
      else
        let search := { search with busy := search.busy.insert (id, stack) }
        match network.state? id with
        | none => { search with lost := true }
        | some state =>
          match mode.ending? id state stack with
          | some symbol => search.add symbol
          | none => network.visitState mode fuel state stack called search := by
  rw [visit]
  rfl

/-- A search ends at the end of the outermost rule only, and notes no symbol there. -/
theorem LookMode.ending?_spec {mode : LookMode} {id : Nat} {state : State} {stack : List Nat}
    {n : Int} (h : mode.ending? id state stack = some n) : stack = [] ∧ n ≤ Text.maxInt32 := by
  unfold LookMode.ending? at h
  split at h
  · next hempty =>
    refine ⟨List.isEmpty_iff.mp (Bool.and_eq_true_iff.mp hempty).2, ?_⟩
    split at h
    · obtain rfl := Option.some.inj h
      decide
    · split at h
      · obtain rfl := Option.some.inj h
        decide
      · cases h
  · cases h

/-! ## What a search comes to -/

/-- A search ends at a configuration, and this is what it notes there. -/
def Ends (network : Network) (mode : LookMode) (c : Config) (n : Int) : Prop :=
  ∃ state, network.state? c.1 = some state ∧ mode.ending? c.1 state c.2 = some n

structure Takes (network : Network) (mode : LookMode) (c : Config) (t : Transition) : Prop where
  leaves : network.Leaves c t
  goesOn : ∀ n, ¬network.Ends mode c n

/-- Where a transition leads a search with the stack `stack`. -/
inductive Leads (mode : LookMode) (stack : List Nat) : Transition → Config → Prop
  | pass {t : Transition} : t.isEpsilon = true → t.isCall = false →
    (t.isPredicate = true → mode.throughPredicates = true) → Leads mode stack t (t.target, stack)
  | call {target rule follow : Nat} {precedence : Int} :
    Leads mode stack (.rule target rule precedence follow) (target, follow :: stack)

inductive Marks (network : Network) (mode : LookMode) (t : Transition) : Int → Prop
  | reads {n : Int} : network.Reads t n → Marks network mode t n
  | predicate : t.isPredicate = true → mode.throughPredicates = false →
    Marks network mode t Symbol.invalid

/-- Where a search goes on from a configuration. -/
inductive Onward (network : Network) (mode : LookMode) : Config → Config → Prop
  | along {c d : Config} {t : Transition} : network.Takes mode c t → Leads mode c.2 t d →
    Onward network mode c d
  | back {id follow : Nat} {stack : List Nat} : network.IsStop id →
    Onward network mode (id, follow :: stack) (follow, stack)

/-- All that a search comes to. -/
abbrev Reaches (network : Network) (mode : LookMode) : Config → Config → Prop :=
  Relation.ReflTransGen (Onward network mode)

inductive Notes (network : Network) (mode : LookMode) (c : Config) : Int → Prop
  | ending {n : Int} : network.Ends mode c n → Notes network mode c n
  | along {t : Transition} {n : Int} : network.Takes mode c t → network.Marks mode t n →
    Notes network mode c n

/-! ## The postcondition of a search -/

/-- A search has gone on from a configuration in every way there is, and noted what there is. -/
structure Explored (network : Network) (mode : LookMode) (search : Search) (c : Config) : Prop where
  onward : ∀ d, network.Onward mode c d → d ∈ search.busy
  noted : ∀ n, network.Notes mode c n → n ∈ search.look

/-- What a search from the configuration `c` has done. -/
structure Finds (network : Network) (mode : LookMode) (c : Config) (before after : Search) :
    Prop where
  grows : ∀ d ∈ before.busy, d ∈ after.busy
  keeps : ∀ n ∈ before.look, n ∈ after.look
  canonical : after.look.Canonical
  found : ∀ n ∈ after.look, n ∈ before.look ∨
    ∃ d, network.Reaches mode c d ∧ network.Notes mode d n
  explored : ∀ d ∈ after.busy, d ∉ before.busy → network.Explored mode after d

section Postcondition

variable {network : Network} {mode : LookMode} {c d : Config}
  {search before after after' : Search}

theorem Explored.mono (h : network.Explored mode search c)
    (hbusy : ∀ d ∈ search.busy, d ∈ after.busy) (hlook : ∀ n ∈ search.look, n ∈ after.look) :
    network.Explored mode after c :=
  ⟨fun d hd => hbusy d (h.onward d hd), fun n hn => hlook n (h.noted n hn)⟩

theorem Finds.refl (h : search.look.Canonical) : network.Finds mode c search search :=
  ⟨fun _ h => h, fun _ h => h, h, fun _ h => Or.inl h, fun _ h hn => absurd h hn⟩

/-- Searches one after another make one search. -/
theorem Finds.trans (h : network.Finds mode c before after)
    (h' : network.Finds mode c after after') : network.Finds mode c before after' := by
  refine ⟨fun d hd => h'.grows d (h.grows d hd), fun n hn => h'.keeps n (h.keeps n hn),
    h'.canonical, fun n hn => ?_, fun d hd hnot => ?_⟩
  · rcases h'.found n hn with hn | hn
    · exact h.found n hn
    · exact Or.inr hn
  · by_cases hafter : d ∈ after.busy
    · exact (h.explored d hafter hnot).mono h'.grows h'.keeps
    · exact h'.explored d hd hafter

/-- What is found behind a step is found before it. -/
theorem Finds.of_onward (hstep : network.Onward mode c d)
    (h : network.Finds mode d before after) : network.Finds mode c before after := by
  refine ⟨h.grows, h.keeps, h.canonical, fun n hn => (h.found n hn).imp_right ?_, h.explored⟩
  rintro ⟨e, hreaches, hnotes⟩
  exact ⟨e, hreaches.head hstep, hnotes⟩

/-- Noting something enters nothing. -/
theorem Finds.note {look : IntervalSet} (hcan : look.Canonical)
    (hkeeps : ∀ n ∈ search.look, n ∈ look)
    (hfound : ∀ n ∈ look, n ∈ search.look ∨ network.Notes mode c n) :
    network.Finds mode c search { search with look } :=
  ⟨fun _ h => h, hkeeps, hcan,
    fun n hn => (hfound n hn).imp_right fun hnotes => ⟨c, .refl, hnotes⟩,
    fun _ h hn => absurd h hn⟩

end Postcondition

/-! ## Fuel -/

section Fuel

variable {room : Finset Config} {search before after : Search} {c : Config}

/-- The configurations of some that a search has not entered yet. -/
def unentered (room : Finset Config) (search : Search) : Finset Config :=
  room.filter fun c => c ∉ search.busy

theorem unentered_mono (h : ∀ d ∈ before.busy, d ∈ after.busy) :
    (unentered room after).card ≤ (unentered room before).card := by
  refine Finset.card_le_card fun c hc => ?_
  obtain ⟨hc, hnot⟩ := Finset.mem_filter.mp hc
  exact Finset.mem_filter.mpr ⟨hc, fun hb => hnot (h c hb)⟩

theorem unentered_insert (hc : c ∈ room) (hnew : c ∉ search.busy) :
    (unentered room { search with busy := search.busy.insert c }).card <
      (unentered room search).card := by
  refine Finset.card_lt_card (Finset.ssubset_iff.mpr ⟨c, ?_, fun d hd => ?_⟩)
  · intro h
    exact (Finset.mem_filter.mp h).2 Std.HashSet.mem_insert_self
  · rcases Finset.mem_insert.mp hd with rfl | hd
    · exact Finset.mem_filter.mpr ⟨hc, hnew⟩
    · obtain ⟨hd, hnot⟩ := Finset.mem_filter.mp hd
      exact Finset.mem_filter.mpr ⟨hd, fun hb => hnot (Std.HashSet.mem_insert.mpr (Or.inr hb))⟩

/-- What is left to enter needs fuel. -/
theorem mem_busy_of_unentered (hc : c ∈ room) (h : (unentered room search).card ≤ 0) :
    c ∈ search.busy := by
  by_contra hnew
  exact absurd (Finset.card_pos.mpr ⟨c, Finset.mem_filter.mpr ⟨hc, hnew⟩⟩) (Nat.not_lt.mpr h)

end Fuel

/-- The configurations that a search from `start` has not entered yet. -/
def notEntered (network : Network) (start : Nat) (search : Search) : Finset Config :=
  (network.configs start).filter fun c => c ∉ search.busy

theorem notEntered_mono {network : Network} {start : Nat} {before after : Search}
    (h : ∀ d ∈ before.busy, d ∈ after.busy) :
    (network.notEntered start after).card ≤ (network.notEntered start before).card :=
  unentered_mono h

theorem notEntered_insert {network : Network} {start : Nat} {search : Search} {c : Config}
    (hc : c ∈ network.configs start) (hnew : c ∉ search.busy) :
    (network.notEntered start { search with busy := search.busy.insert c }).card <
      (network.notEntered start search).card :=
  unentered_insert hc hnew

section Places

variable {network : Network} {start id : Nat} {stack called : List Nat}

theorem Inner.mem_transitions {t : Transition} (h : network.Inner id t) :
    t ∈ network.transitions := by
  obtain ⟨state, hstate, -, ht⟩ := h
  exact Network.mem_transitions hstate ht

theorem Leaves.target_mem {t : Transition} (h : network.Leaves (id, stack) t) :
    t.target ∈ network.places start := by
  obtain ⟨state, hstate, -, ht⟩ := h
  have hmem := List.mem_map_of_mem (f := Transition.target) (mem_transitions hstate ht)
  exact Finset.mem_insert_of_mem (Finset.mem_union_left _ (List.mem_toFinset.mpr hmem))

theorem Nested.follows (h : network.Nested id stack called) :
    ∀ x ∈ stack, x ∈ network.follows := by
  induction h with
  | base => exact fun x hx => absurd hx List.not_mem_nil
  | call _ ht _ ih =>
      refine List.forall_mem_cons.mpr ⟨?_, ih⟩
      exact List.mem_toFinset.mpr (List.mem_filterMap.mpr ⟨_, ht.mem_transitions, rfl⟩)

theorem Nested.calledRules (h : network.Nested id stack called) :
    ∀ x ∈ called, x ∈ network.calledRules := by
  induction h with
  | base => exact fun x hx => absurd hx List.not_mem_nil
  | call _ ht _ ih =>
      refine List.forall_mem_cons.mpr ⟨?_, ih⟩
      exact List.mem_toFinset.mpr (List.mem_filterMap.mpr ⟨_, ht.mem_transitions, rfl⟩)

/-- Rules on a stack are different from each other, so it holds no more than there are calls. -/
theorem Nested.mem_configs (hruled : network.Ruled) (hcycles : network.cycles = [])
    (h : network.Nested id stack called) (hid : id ∈ network.places start) :
    (id, stack) ∈ network.configs start := by
  have hlen : stack.length ≤ network.callCount := by
    rw [h.length_eq, ← List.toFinset_card_of_nodup (h.nodup hruled hcycles)]
    refine (Finset.card_le_card fun x hx => ?_).trans network.card_calledRules_le
    exact h.calledRules x (List.mem_toFinset.mp hx)
  exact Finset.mem_product.mpr ⟨hid, mem_stacksUpTo h.follows hlen⟩

end Places

/-! ## The search finds what is shown -/

/-- What a network has to be like for the search to be exact. -/
structure Searchable (network : Network) : Prop where
  ruled : network.Ruled
  labels : ∀ id state, network.state? id = some state → ∀ t ∈ state.transitions, LabelFits t
  bounded : network.maxSymbol < Text.maxInt32
  acyclic : network.cycles = []

/-- What is to be shown of all searches with a given fuel. -/
def SearchesWith (network : Network) (mode : LookMode) (start fuel : Nat) : Prop :=
  ∀ id stack called search, (network.notEntered start search).card ≤ fuel →
    network.Nested id stack called → id ∈ network.places start → search.look.Canonical →
    network.Finds mode (id, stack) search (network.visit mode fuel id stack called search) ∧
      (id, stack) ∈ (network.visit mode fuel id stack called search).busy

/-- What a search has done with a transition that it takes. -/
structure Pursued (network : Network) (mode : LookMode) (stack : List Nat) (t : Transition)
    (after : Search) : Prop where
  entered : ∀ d, Leads mode stack t d → d ∈ after.busy
  noted : ∀ n, network.Marks mode t n → n ∈ after.look

section Step

variable {network : Network} {mode : LookMode} {start fuel id : Nat} {stack called : List Nat}
  {search after after' : Search} {t : Transition}

/-- A transition is taken within a rule, or behind the end of a rule whose callers are not
known. -/
theorem Leaves.inner_or_exit (hruled : network.Ruled) (ht : network.Leaves (id, stack) t) :
    network.Inner id t ∨ (stack = [] ∧ ∃ follow, t = .epsilon follow) := by
  obtain ⟨state, hstate, hstack, ht⟩ := ht
  by_cases hstop : state.kind = .ruleStop
  · exact Or.inr ⟨hstack hstop, hruled.exits id state hstate (by rw [hstop]; rfl) t ht⟩
  · exact Or.inl ⟨state, hstate, hstop, ht⟩

theorem Nested.leave (hruled : network.Ruled) (hnested : network.Nested id stack called)
    (ht : network.Leaves (id, stack) t) (heps : t.isEpsilon = true) (hcall : t.isCall = false) :
    network.Nested t.target stack called := by
  rcases ht.inner_or_exit hruled with hinner | ⟨rfl, -⟩
  · exact hnested.pass hinner heps hcall
  · cases hnested
    exact .base _

theorem Pursued.mono (h : network.Pursued mode stack t after)
    (hfinds : network.Finds mode (id, stack) after after') :
    network.Pursued mode stack t after' :=
  ⟨fun d hd => hfinds.grows d (h.entered d hd), fun n hn => hfinds.keeps n (h.noted n hn)⟩

theorem not_reads_of_isEpsilon (h : t.isEpsilon = true) (n : Int) : ¬network.Reads t n := by
  cases t <;> first | exact fun h => h | cases h

theorem isEpsilon_of_isPredicate (h : t.isPredicate = true) : t.isEpsilon = true := by
  cases t <;> first | rfl | cases h

theorem finds_of_visitCall (h : network.Searchable) (ih : network.SearchesWith mode start fuel)
    (hfuel : (network.notEntered start search).card ≤ fuel)
    (hnested : network.Nested id stack called) (hcan : search.look.Canonical)
    {target rule follow : Nat} {precedence : Int}
    (ht : network.Takes mode (id, stack) (.rule target rule precedence follow))
    (hafter : after = network.visitStep mode fuel stack called search
      (.rule target rule precedence follow)) :
    network.Finds mode (id, stack) search after ∧
      network.Pursued mode stack (.rule target rule precedence follow) after := by
  have hinner : network.Inner id (.rule target rule precedence follow) := by
    rcases ht.leaves.inner_or_exit h.ruled with hinner | ⟨-, f, hf⟩
    · exact hinner
    · cases hf
  have hnew : ¬called.contains rule = true := fun hc =>
    hnested.not_mem_called h.ruled h.acyclic hinner (List.contains_iff_mem.mp hc)
  simp only [visitStep, if_neg hnew] at hafter
  subst hafter
  obtain ⟨hfinds, hbusy⟩ := ih target (follow :: stack) (rule :: called) search hfuel
    (hnested.enter hinner) ht.leaves.target_mem hcan
  refine ⟨hfinds.of_onward (.along ht .call), fun d hd => ?_, fun n hn => ?_⟩
  · cases hd with
    | pass _ hcall => cases hcall
    | call => exact hbusy
  · cases hn with
    | reads hreads => exact hreads.elim
    | predicate hpred => cases hpred

/-- A transition that calls nothing leads at most to its target. -/
theorem Leads.of_not_call {d : Config} (h : Leads mode stack t d) (hcall : t.isCall = false) :
    t.isEpsilon = true ∧ (t.isPredicate = true → mode.throughPredicates = true) ∧
      d = (t.target, stack) := by
  cases h with
  | pass heps _ hpass => exact ⟨heps, hpass, rfl⟩
  | call => cases hcall

/-- A predicate that the search does not pass. -/
theorem finds_of_border (hcan : search.look.Canonical) (ht : network.Takes mode (id, stack) t)
    (hpred : t.isPredicate = true) (hclosed : mode.throughPredicates = false) :
    network.Finds mode (id, stack) search (search.add Symbol.invalid) ∧
      network.Pursued mode stack t (search.add Symbol.invalid) := by
  have hinvalid : Symbol.invalid ≤ Text.maxInt32 := by decide
  have hmem := IntervalSet.mem_add hcan hinvalid
  refine ⟨Finds.note (hcan.add hinvalid) (fun n hn => (hmem n).mpr (Or.inl hn))
    fun n hn => ((hmem n).mp hn).imp_right ?_, fun d hd => ?_, fun n hn => ?_⟩
  · rintro rfl
    exact .along ht (.predicate hpred hclosed)
  · cases hd with
    | pass _ _ hpass => exact absurd (hpass hpred) (by rw [hclosed]; decide)
    | call => cases hpred
  · cases hn with
    | reads hreads =>
        exact absurd hreads (not_reads_of_isEpsilon (isEpsilon_of_isPredicate hpred) n)
    | predicate => exact (hmem _).mpr (Or.inr rfl)

/-- A transition that the search passes without reading. -/
theorem finds_of_pass (h : network.Searchable) (ih : network.SearchesWith mode start fuel)
    (hfuel : (network.notEntered start search).card ≤ fuel)
    (hnested : network.Nested id stack called) (hcan : search.look.Canonical)
    (ht : network.Takes mode (id, stack) t) (heps : t.isEpsilon = true) (hcall : t.isCall = false)
    (hpass : t.isPredicate = true → mode.throughPredicates = true)
    (hafter : after = network.visit mode fuel t.target stack called search) :
    network.Finds mode (id, stack) search after ∧ network.Pursued mode stack t after := by
  subst hafter
  obtain ⟨hfinds, hbusy⟩ := ih t.target stack called search hfuel
    (hnested.leave h.ruled ht.leaves heps hcall) ht.leaves.target_mem hcan
  refine ⟨hfinds.of_onward (.along ht (.pass heps hcall hpass)), fun d hd => ?_, fun n hn => ?_⟩
  · exact (hd.of_not_call hcall).2.2 ▸ hbusy
  · cases hn with
    | reads hreads => exact absurd hreads (not_reads_of_isEpsilon heps n)
    | predicate hpred hclosed => exact absurd (hpass hpred) (by rw [hclosed]; decide)

/-- A transition that reads something. -/
theorem finds_of_read (h : network.Searchable) (hcan : search.look.Canonical)
    (ht : network.Takes mode (id, stack) t) (hcall : t.isCall = false) (heps : ¬t.isEpsilon = true) :
    network.Finds mode (id, stack) search (search.addAll (network.readBy t)) ∧
      network.Pursued mode stack t (search.addAll (network.readBy t)) := by
  have hfits : LabelFits t := by
    obtain ⟨state, hstate, -, ht⟩ := ht.leaves
    exact h.labels id state hstate t ht
  obtain ⟨hread, hmemread⟩ := readBy_spec h.bounded hfits
  have hmem := IntervalSet.mem_addAll hcan hread
  refine ⟨Finds.note (hcan.addAll hread) (fun n hn => (hmem n).mpr (Or.inl hn))
    fun n hn => ((hmem n).mp hn).imp_right fun hn => .along ht (.reads ((hmemread n).mp hn)),
    fun d hd => absurd (hd.of_not_call hcall).1 heps, fun n hn => ?_⟩
  cases hn with
  | reads hreads => exact (hmem n).mpr (Or.inr ((hmemread n).mpr hreads))
  | predicate hpred => exact absurd (isEpsilon_of_isPredicate hpred) heps

theorem finds_of_visitStep (h : network.Searchable) (ih : network.SearchesWith mode start fuel)
    (hfuel : (network.notEntered start search).card ≤ fuel)
    (hnested : network.Nested id stack called) (hcan : search.look.Canonical)
    (ht : network.Takes mode (id, stack) t)
    (hafter : after = network.visitStep mode fuel stack called search t) :
    network.Finds mode (id, stack) search after ∧ network.Pursued mode stack t after := by
  cases hcall : t.isCall with
  | true =>
      cases t with
      | rule target rule precedence follow =>
          exact finds_of_visitCall h ih hfuel hnested hcan ht hafter
      | _ => cases hcall
  | false =>
      rw [visitStep_of_not_call hcall] at hafter
      split at hafter
      · next hborder =>
        rw [Bool.and_eq_true, Bool.not_eq_true'] at hborder
        exact hafter ▸ finds_of_border hcan ht hborder.1 hborder.2
      · next hopen =>
        have hpass : t.isPredicate = true → mode.throughPredicates = true := by
          intro hpred
          rw [hpred, Bool.true_and, Bool.not_eq_true', Bool.not_eq_false] at hopen
          exact hopen
        split at hafter
        · next heps => exact finds_of_pass h ih hfuel hnested hcan ht heps hcall hpass hafter
        · next heps => exact hafter ▸ finds_of_read h hcan ht hcall heps

theorem finds_of_fold (h : network.Searchable) (ih : network.SearchesWith mode start fuel)
    (hnested : network.Nested id stack called) (ts : List Transition)
    (hts : ∀ t ∈ ts, network.Takes mode (id, stack) t) {search : Search}
    (hfuel : (network.notEntered start search).card ≤ fuel) (hcan : search.look.Canonical) :
    network.Finds mode (id, stack) search
        (ts.foldl (network.visitStep mode fuel stack called) search) ∧
      ∀ t ∈ ts, network.Pursued mode stack t
        (ts.foldl (network.visitStep mode fuel stack called) search) := by
  induction ts generalizing search with
  | nil => exact ⟨Finds.refl hcan, fun t ht => absurd ht List.not_mem_nil⟩
  | cons t ts ihts =>
      obtain ⟨hfinds, hpursued⟩ :=
        finds_of_visitStep h ih hfuel hnested hcan (hts t (List.mem_cons_self ..)) rfl
      obtain ⟨hfinds', hpursued'⟩ := ihts (fun u hu => hts u (List.mem_cons_of_mem _ hu))
        ((notEntered_mono hfinds.grows).trans hfuel) hfinds.canonical
      refine ⟨hfinds.trans hfinds', fun u hu => ?_⟩
      rcases List.mem_cons.mp hu with rfl | hu
      · exact hpursued.mono hfinds'
      · exact hpursued' u hu

/-- A search that enters a configuration and goes on from it in every way. -/
theorem Finds.enter {c : Config} {before after : Search}
    (h : network.Finds mode c { before with busy := before.busy.insert c } after)
    (hexplored : network.Explored mode after c) :
    network.Finds mode c before after ∧ c ∈ after.busy := by
  have hgrows := h.grows
  simp only [Std.HashSet.mem_insert] at hgrows
  refine ⟨⟨fun d hd => hgrows d (Or.inr hd), h.keeps, h.canonical, h.found,
    fun d hd hnot => ?_⟩, hgrows c (Or.inl (by simp))⟩
  by_cases hdc : c = d
  · exact hdc ▸ hexplored
  · refine h.explored d hd fun hmem => ?_
    rcases Std.HashSet.mem_insert.mp hmem with heq | hmem
    · exact hdc (beq_iff_eq.mp heq)
    · exact hnot hmem

/-- The way back to the caller from the end of a rule. -/
theorem finds_of_back (h : network.Searchable) (ih : network.SearchesWith mode start fuel)
    {state : State} {back : Nat} {outer : List Nat}
    (hnested : network.Nested id (back :: outer) called)
    (hstate : network.state? id = some state) (hstop : state.kind = .ruleStop)
    (hgoes : ∀ n, ¬network.Ends mode (id, back :: outer) n)
    (hfuel : (network.notEntered start search).card ≤ fuel) (hcan : search.look.Canonical)
    (hafter : after = network.visit mode fuel back outer (called.erase state.rule) search) :
    network.Finds mode (id, back :: outer) search after ∧
      network.Explored mode after (id, back :: outer) := by
  subst hafter
  have hnone : ∀ t, ¬network.Takes mode (id, back :: outer) t := by
    rintro t ⟨⟨other, hother, hempty, -⟩, -⟩
    obtain rfl : other = state := Option.some.inj (hother.symm.trans hstate)
    cases hempty hstop
  have hnested' := hnested.back h.ruled ⟨state, hstate, hstop⟩
    ⟨state, hstate, rfl, by rw [hstop]; decide⟩
  have hplace : back ∈ network.places start :=
    Finset.mem_insert_of_mem (Finset.mem_union_right _
      (hnested.follows back (List.mem_cons_self ..)))
  obtain ⟨hfinds, hbusy⟩ := ih back outer _ search hfuel hnested' hplace hcan
  refine ⟨hfinds.of_onward (.back ⟨state, hstate, hstop⟩), fun d hd => ?_, fun n hn => ?_⟩
  · cases hd with
    | along htakes => exact absurd htakes (hnone _)
    | back => exact hbusy
  · cases hn with
    | ending hends => exact absurd hends (hgoes n)
    | along htakes => exact absurd htakes (hnone _)

/-- The transitions of a state that is not the end of a rule that has been called. -/
theorem finds_of_transitions (h : network.Searchable) (ih : network.SearchesWith mode start fuel)
    (hnested : network.Nested id stack called) {state : State}
    (hstate : network.state? id = some state) (hempty : state.kind = .ruleStop → stack = [])
    (hgoes : ∀ n, ¬network.Ends mode (id, stack) n)
    (hfuel : (network.notEntered start search).card ≤ fuel) (hcan : search.look.Canonical)
    (hafter : after =
      state.transitions.foldl (network.visitStep mode fuel stack called) search) :
    network.Finds mode (id, stack) search after ∧ network.Explored mode after (id, stack) := by
  subst hafter
  obtain ⟨hfinds, hpursued⟩ := finds_of_fold h ih hnested state.transitions
    (fun t ht => ⟨⟨state, hstate, hempty, ht⟩, hgoes⟩) hfuel hcan
  have htaken : ∀ t, network.Takes mode (id, stack) t → t ∈ state.transitions := by
    rintro t ⟨⟨other, hother, -, ht⟩, -⟩
    obtain rfl : other = state := Option.some.inj (hother.symm.trans hstate)
    exact ht
  refine ⟨hfinds, fun d hd => ?_, fun n hn => ?_⟩
  · cases hd with
    | along htakes hleads => exact (hpursued _ (htaken _ htakes)).entered d hleads
    | back hstop =>
        obtain ⟨other, hother, hstop⟩ := hstop
        obtain rfl : other = state := Option.some.inj (hother.symm.trans hstate)
        cases hempty hstop
  · cases hn with
    | ending hends => exact absurd hends (hgoes n)
    | along htakes hmarks => exact (hpursued _ (htaken _ htakes)).noted n hmarks

/-- What follows on entering a state at which the search does not end: its transitions, or the way
back to the caller. -/
theorem finds_of_visitState (h : network.Searchable) (ih : network.SearchesWith mode start fuel)
    (hnested : network.Nested id stack called) {state : State}
    (hstate : network.state? id = some state) (hgoes : ∀ n, ¬network.Ends mode (id, stack) n)
    (hfuel : (network.notEntered start search).card ≤ fuel) (hcan : search.look.Canonical)
    (hafter : after = network.visitState mode fuel state stack called search) :
    network.Finds mode (id, stack) search after ∧ network.Explored mode after (id, stack) := by
  cases stack with
  | nil => exact finds_of_transitions h ih hnested hstate (fun _ => rfl) hgoes hfuel hcan hafter
  | cons back outer =>
      rw [visitState] at hafter
      split at hafter
      · next hstop => exact finds_of_back h ih hnested hstate hstop hgoes hfuel hcan hafter
      · next hgoing =>
        exact finds_of_transitions h ih hnested hstate (fun hstop => absurd hstop hgoing) hgoes hfuel
          hcan hafter

end Step

section Entered

variable {network : Network} {mode : LookMode} {start fuel id : Nat} {stack : List Nat}
  {search : Search} {state : State}

theorem ends_iff (hstate : network.state? id = some state) {n : Int} :
    network.Ends mode (id, stack) n ↔ mode.ending? id state stack = some n := by
  refine ⟨?_, fun hn => ⟨state, hstate, hn⟩⟩
  rintro ⟨other, hother, hn⟩
  obtain rfl : other = state := Option.some.inj (hother.symm.trans hstate)
  exact hn

/-- Outside the network there is nothing to explore. -/
theorem explored_of_lost (hstate : network.state? id = none) :
    network.Explored mode search (id, stack) := by
  have hlost : ∀ state, network.state? id ≠ some state := fun state hsome =>
    nomatch hstate.symm.trans hsome
  have hnone : ∀ t, ¬network.Takes mode (id, stack) t := fun t htakes =>
    htakes.leaves.elim fun state hs => hlost state hs.1
  refine ⟨fun d hd => ?_, fun n hn => ?_⟩
  · cases hd with
    | along htakes => exact absurd htakes (hnone _)
    | back hstop => exact hstop.elim fun state hs => absurd hs.1 (hlost state)
  · cases hn with
    | ending hends => exact hends.elim fun state hs => absurd hs.1 (hlost state)
    | along htakes => exact absurd htakes (hnone _)

/-- A state at which the search ends. -/
theorem finds_of_ending (hstate : network.state? id = some state) {symbol : Int}
    (hending : mode.ending? id state stack = some symbol) (hcan : search.look.Canonical) :
    network.Finds mode (id, stack) search (search.add symbol) ∧
      network.Explored mode (search.add symbol) (id, stack) := by
  obtain ⟨hnil, hle⟩ := LookMode.ending?_spec hending
  have hmem := IntervalSet.mem_add hcan hle
  have hhere := (ends_iff hstate).mpr hending
  refine ⟨Finds.note (hcan.add hle) (fun n hn => (hmem n).mpr (Or.inl hn))
    fun n hn => ((hmem n).mp hn).imp_right ?_, fun d hd => ?_, fun n hn => ?_⟩
  · rintro rfl
    exact .ending hhere
  · cases hd with
    | along htakes => exact absurd hhere (htakes.goesOn symbol)
    | back => cases hnil
  · refine (hmem n).mpr (Or.inr ?_)
    cases hn with
    | ending hn => exact Option.some.inj (((ends_iff hstate).mp hn).symm.trans hending)
    | along htakes => exact absurd hhere (htakes.goesOn symbol)

end Entered

theorem searchesWith {network : Network} (h : network.Searchable) (mode : LookMode)
    (start fuel : Nat) : network.SearchesWith mode start fuel := by
  induction fuel with
  | zero =>
      intro id stack called search hfuel hnested hid hcan
      exact ⟨Finds.refl hcan,
        mem_busy_of_unentered (hnested.mem_configs h.ruled h.acyclic hid) hfuel⟩
  | succ fuel ih =>
      intro id stack called search hfuel hnested hid hcan
      rw [visit_succ]
      split
      · next hold => exact ⟨Finds.refl hcan, Std.HashSet.contains_iff_mem.mp hold⟩
      · next hnew =>
        have hnew : (id, stack) ∉ search.busy := fun hm =>
          hnew (Std.HashSet.contains_iff_mem.mpr hm)
        have hleft : (network.notEntered start
            { search with busy := search.busy.insert (id, stack) }).card ≤ fuel := by
          have := notEntered_insert (hnested.mem_configs h.ruled h.acyclic hid) hnew
          omega
        cases hstate : network.state? id with
        | none =>
            exact Finds.enter ⟨fun _ hd => hd, fun _ hn => hn, hcan, fun _ hn => Or.inl hn,
              fun _ hd hnot => absurd hd hnot⟩ (explored_of_lost hstate)
        | some state =>
            cases hending : mode.ending? id state stack with
            | none =>
                have hgoes : ∀ n, ¬network.Ends mode (id, stack) n := fun n hn =>
                  nomatch hending.symm.trans ((ends_iff hstate).mp hn)
                simp only [hending]
                obtain ⟨hfinds, hexplored⟩ :=
                  finds_of_visitState h ih hnested hstate hgoes hleft hcan rfl
                exact hfinds.enter hexplored
            | some symbol =>
                simp only [hending]
                have hentered : ({ search with
                    busy := search.busy.insert (id, stack) } : Search).look.Canonical := hcan
                obtain ⟨hfinds, hexplored⟩ := finds_of_ending hstate hending hentered
                exact hfinds.enter hexplored

/-- A search without a stack notes what there is to note where it comes to, and nothing else. -/
theorem look_searchFrom {network : Network} (h : network.Searchable) (mode : LookMode)
    (start : Nat) :
    (network.searchFrom mode start []).look.Canonical ∧
      ∀ n, n ∈ (network.searchFrom mode start []).look ↔
        ∃ c, network.Reaches mode (start, []) c ∧ network.Notes mode c n := by
  have hfuel : (network.notEntered start {}).card ≤ network.visitBound [] :=
    (Finset.card_filter_le _ _).trans (Nat.le_of_lt (network.card_configs_lt start))
  obtain ⟨hfinds, hbusy⟩ := searchesWith h mode start (network.visitBound []) start [] [] {} hfuel
    (.base start) (Finset.mem_insert_self _ _) IntervalSet.canonical_empty
  -- all configurations that can be reached have been entered, and so explored
  have hnone : ∀ c : Config, c ∉ ({} : Search).busy := fun c => Std.HashSet.not_mem_empty
  have hexplored := fun c hc => hfinds.explored c hc (hnone c)
  have hreached : ∀ c, network.Reaches mode (start, []) c →
      c ∈ (network.searchFrom mode start []).busy := by
    intro c hreaches
    induction hreaches with
    | refl => exact hbusy
    | tail _ hstep ih => exact (hexplored _ ih).onward _ hstep
  refine ⟨hfinds.canonical, fun n => ⟨fun hn => ?_, fun hn => ?_⟩⟩
  · exact (hfinds.found n hn).resolve_left (IntervalSet.not_mem_empty n)
  · obtain ⟨c, hreaches, hnotes⟩ := hn
    exact (hexplored _ (hreached c hreaches)).noted n hnotes

/-! ## The search for an alternative -/

/-- Nothing ends the search for an alternative. -/
theorem ending?_decisionMode (id : Nat) (state : State) (stack : List Nat) :
    decisionMode.ending? id state stack = none := by
  simp [LookMode.ending?, decisionMode]

section Decision

variable {network : Network} {c d : Config} {t : Transition} {n : Int}

theorem takes_decisionMode : network.Takes decisionMode c t ↔ network.Leaves c t := by
  refine ⟨fun h => h.leaves, fun h => ⟨h, ?_⟩⟩
  rintro n ⟨state, -, hends⟩
  rw [ending?_decisionMode] at hends
  cases hends

/-- The search for an alternative goes on as the network steps. -/
theorem onward_decisionMode : network.Onward decisionMode c d ↔ network.Step c d := by
  constructor
  · rintro (⟨htakes, ⟨heps, hcall, hpass⟩ | -⟩ | ⟨state, hstate, hkind⟩)
    · refine .of_leaves htakes.leaves heps ?_ hcall
      rw [← Bool.not_eq_true]
      intro hpred
      cases hpass hpred
    · exact .call htakes.leaves
    · exact .back hstate hkind
  · intro h
    cases h with
    | epsilon hl => exact .along (takes_decisionMode.mpr hl) (.pass rfl rfl nofun)
    | action hl => exact .along (takes_decisionMode.mpr hl) (.pass rfl rfl nofun)
    | call hl => exact .along (takes_decisionMode.mpr hl) .call
    | back hstate hkind => exact .back ⟨_, hstate, hkind⟩

theorem reaches_decisionMode : network.Reaches decisionMode c d ↔ network.Steps c d := by
  have hsame : network.Onward decisionMode = network.Step :=
    funext fun c => funext fun d => propext onward_decisionMode
  rw [Reaches, hsame]

/-- What it notes is what the network shows. -/
theorem shows_iff : network.Shows c n ↔
    ∃ d, network.Reaches decisionMode c d ∧ network.Notes decisionMode d n := by
  constructor
  · rintro (⟨hsteps, hl, hreads⟩ | ⟨hsteps, hl, hpred⟩)
    · exact ⟨_, reaches_decisionMode.mpr hsteps, .along (takes_decisionMode.mpr hl) (.reads hreads)⟩
    · exact ⟨_, reaches_decisionMode.mpr hsteps,
        .along (takes_decisionMode.mpr hl) (.predicate hpred rfl)⟩
  · rintro ⟨d, hreaches, ⟨state, -, hends⟩ | ⟨htakes, hreads | ⟨hpred, -⟩⟩⟩
    · rw [ending?_decisionMode] at hends
      cases hends
    · exact .reads (reaches_decisionMode.mp hreaches) htakes.leaves hreads
    · exact .predicate (reaches_decisionMode.mp hreaches) htakes.leaves hpred

end Decision

/-- The search from a state without a stack finds exactly what is shown there. -/
theorem mem_searchFrom {network : Network} (h : network.Searchable) (start : Nat) :
    (network.searchFrom decisionMode start []).look.Canonical ∧
      ∀ n, n ∈ (network.searchFrom decisionMode start []).look ↔
        network.Shows (start, []) n := by
  obtain ⟨hcan, hmem⟩ := look_searchFrom h decisionMode start
  exact ⟨hcan, fun n => (hmem n).trans shows_iff.symm⟩

end Network

end GrammarCompiler
