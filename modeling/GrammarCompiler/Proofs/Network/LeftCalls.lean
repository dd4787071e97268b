import GrammarCompiler.Network.LeftCycle
import GrammarCompiler.Proofs.Network.Config
import Mathlib.Data.Finset.Card

/-!
# What a trace proves

A rule calls another one on its left if it comes to the call without reading anything. The trace
of a network (`cycles`) is a depth-first search for rules that call themselves this way. Here it
is shown to meet every ring of left calls (`exists_met`): if a rule calls itself on its left, in
one step or in many, some rule on its way is in a cycle. So without cycles no rule does.

A trace enters no state twice for the same rule, and no rule that is being traced. The first loses
nothing. What an earlier visit has entered is followed there, and the answer whether the rule can
end comes from the first visit to reach the end. The second closes a cycle, but what is called
behind such a call may be lost. So the postcondition of a trace (`Traced`) speaks of the states that
are new in `visited`, and names the cycles that the calls it gave up on are in. It follows by
induction on the fuel, which the bound keeps from running out.
-/

namespace GrammarCompiler

namespace Network

/-! ## Left calls -/

/-- The end of a rule. -/
def IsStop (network : Network) (id : Nat) : Prop :=
  ∃ state, network.state? id = some state ∧ state.kind = .ruleStop

/-- A state within a rule, with one of its transitions. -/
def Inner (network : Network) (id : Nat) (t : Transition) : Prop :=
  ∃ state, network.state? id = some state ∧ state.kind ≠ .ruleStop ∧ t ∈ state.transitions

/-- What can be reached within a rule without reading anything. A rule that is called can be
stepped over if its end can be reached this way. -/
inductive Silent (network : Network) : Nat → Nat → Prop
  | refl (start : Nat) : Silent network start start
  | pass {start id : Nat} {t : Transition} :
    Silent network start id → network.Inner id t → t.isEpsilon = true → t.isCall = false →
      Silent network start t.target
  | around {start id target rule follow stop : Nat} {precedence : Int} :
    Silent network start id → network.Inner id (.rule target rule precedence follow) →
      Silent network target stop → network.IsStop stop → Silent network start follow

/-- A rule, known by its start state, calls another one before it has read anything. -/
def LeftCall (network : Network) (caller callee : Nat) : Prop :=
  ∃ id rule precedence follow, network.Silent caller id ∧
    network.Inner id (.rule callee rule precedence follow)

/-! ## Steps of a trace -/

/-- What a trace does with one transition of a state of the rule `rule`. -/
def traceStep (network : Network) (fuel : Nat) (tracing : List Nat) (rule : Nat)
    (found : Bool × Trace) (t : Transition) : Bool × Trace :=
  match t with
  | .rule target callee _ follow =>
    if tracing.contains target then
      (found.1, { found.2 with cycles := found.2.cycles.add rule callee })
    else
      let inner := network.traceFrom fuel (target :: tracing) target { found.2 with visited := [] }
      let trace := { inner.2 with visited := found.2.visited }
      if inner.1 then
        let behind := network.traceFrom fuel tracing follow trace
        (found.1 || behind.1, behind.2)
      else (found.1, trace)
  | t =>
    if t.isEpsilon then
      let behind := network.traceFrom fuel tracing t.target found.2
      (found.1 || behind.1, behind.2)
    else found

theorem traceStep_of_not_call {t : Transition} (h : t.isCall = false) (network : Network)
    (fuel : Nat) (tracing : List Nat) (rule : Nat) (found : Bool × Trace) :
    network.traceStep fuel tracing rule found t =
      if t.isEpsilon then
        let behind := network.traceFrom fuel tracing t.target found.2
        (found.1 || behind.1, behind.2)
      else found := by
  cases t with
  | rule _ _ _ _ => cases h
  | _ => rfl

theorem traceFrom_succ (network : Network) (fuel : Nat) (tracing : List Nat) (id : Nat)
    (trace : Trace) :
    network.traceFrom (fuel + 1) tracing id trace =
      match network.state? id with
      | none => (false, { trace with lost := true })
      | some state =>
        if state.kind = .ruleStop then (true, trace)
        else if trace.visited.contains id then (false, trace)
        else state.transitions.foldl (network.traceStep fuel tracing state.rule)
          (false, { trace with visited := id :: trace.visited }) := by
  rw [traceFrom]
  rfl

end Network

/-! ## Cycles grow -/

namespace Cycles

/-- Every cycle is a part of one of the others. -/
def Within (cycles cycles' : Cycles) : Prop :=
  ∀ cycle ∈ cycles, ∃ cycle' ∈ cycles', cycle ⊆ cycle'

/-- Whether a rule is in one of the cycles. -/
def Holds (cycles : Cycles) (rule : Nat) : Prop :=
  ∃ cycle ∈ cycles, rule ∈ cycle

theorem Within.refl (cycles : Cycles) : cycles.Within cycles :=
  fun cycle hcycle => ⟨cycle, hcycle, fun _ h => h⟩

theorem Within.trans {cycles cycles' cycles'' : Cycles} (h : cycles.Within cycles')
    (h' : cycles'.Within cycles'') : cycles.Within cycles'' := by
  intro cycle hcycle
  obtain ⟨cycle', hcycle', hsub⟩ := h cycle hcycle
  obtain ⟨cycle'', hcycle'', hsub'⟩ := h' cycle' hcycle'
  exact ⟨cycle'', hcycle'', fun rule hrule => hsub' (hsub hrule)⟩

theorem Holds.mono {cycles cycles' : Cycles} {rule : Nat} (h : cycles.Holds rule)
    (hsub : cycles.Within cycles') : cycles'.Holds rule := by
  obtain ⟨cycle, hcycle, hrule⟩ := h
  obtain ⟨cycle', hcycle', hsub⟩ := hsub cycle hcycle
  exact ⟨cycle', hcycle', hsub hrule⟩

theorem mem_pushUnique {cycle : List Nat} {a x : Nat} :
    x ∈ pushUnique cycle a ↔ x ∈ cycle ∨ x = a := by
  unfold pushUnique
  split
  · next h =>
    have h : a ∈ cycle := List.contains_iff_mem.mp h
    exact ⟨Or.inl, fun hx => hx.elim id fun hx => hx ▸ h⟩
  · rw [List.mem_append, List.mem_singleton]

/-- A cycle that holds a rule holds the other one as well after they have been merged. -/
theorem subset_merge (caller callee : Nat) (cycle : List Nat) :
    cycle ⊆ (merge caller callee cycle).1 := by
  have hpush : ∀ (byOther : Bool) (cycle : List Nat) (rule : Nat),
      cycle ⊆ if byOther then pushUnique cycle rule else cycle := by
    intro byOther cycle rule x hx
    split
    · exact mem_pushUnique.mpr (.inl hx)
    · exact hx
  exact fun x hx => hpush _ _ _ (hpush _ _ _ hx)

theorem callee_mem_merge {caller callee : Nat} {cycle : List Nat}
    (h : (merge caller callee cycle).2 = true) : callee ∈ (merge caller callee cycle).1 := by
  unfold merge at h ⊢
  dsimp only at h ⊢
  rcases Bool.or_eq_true_iff.mp h with h | h
  · refine subset_merge caller callee cycle (List.contains_iff_mem.mp h)
  · rw [if_pos h]
    exact mem_pushUnique.mpr (.inr rfl)

theorem within_add (cycles : Cycles) (caller callee : Nat) :
    cycles.Within (cycles.add caller callee) := by
  intro cycle hcycle
  refine ⟨(merge caller callee cycle).1, ?_, subset_merge caller callee cycle⟩
  have hmem : (merge caller callee cycle).1 ∈ (cycles.map (merge caller callee)).map (·.1) :=
    List.mem_map_of_mem (List.mem_map_of_mem hcycle)
  unfold add
  dsimp only
  split
  · exact hmem
  · exact List.mem_append_left _ hmem

theorem holds_add (cycles : Cycles) (caller callee : Nat) :
    (cycles.add caller callee).Holds callee := by
  unfold add
  dsimp only
  split
  · next hany =>
    obtain ⟨merged, hmerged, hby⟩ := List.any_eq_true.mp hany
    obtain ⟨cycle, -, rfl⟩ := List.mem_map.mp hmerged
    exact ⟨_, List.mem_map_of_mem hmerged, callee_mem_merge hby⟩
  · exact ⟨_, List.mem_append_right _ (List.mem_singleton_self _),
      mem_pushUnique.mpr (.inl (List.mem_singleton_self _))⟩

end Cycles

namespace Network

/-- A step of a trace takes no cycle away if the traces in it do not. -/
theorem cycles_of_traceStep {network : Network} {fuel : Nat}
    (ih : ∀ tracing id (trace : Trace),
      trace.cycles.Within (network.traceFrom fuel tracing id trace).2.cycles)
    (tracing : List Nat) (rule : Nat) (found : Bool × Trace) (t : Transition) :
    found.2.cycles.Within (network.traceStep fuel tracing rule found t).2.cycles := by
  cases hcall : t.isCall with
  | false =>
      rw [traceStep_of_not_call hcall]
      split
      · exact ih tracing t.target found.2
      · exact .refl _
  | true =>
      cases t with
      | rule target callee precedence follow =>
          have hinner := ih (target :: tracing) target { found.2 with visited := [] }
          unfold traceStep
          dsimp only
          split
          · exact Cycles.within_add _ _ _
          · generalize network.traceFrom fuel (target :: tracing) target
              { found.2 with visited := [] } = inner at hinner
            split
            · exact hinner.trans (ih tracing follow { inner.2 with visited := found.2.visited })
            · exact hinner
      | _ => cases hcall

theorem cycles_of_fold {network : Network} {fuel : Nat}
    (ih : ∀ tracing id (trace : Trace),
      trace.cycles.Within (network.traceFrom fuel tracing id trace).2.cycles)
    (tracing : List Nat) (rule : Nat) (ts : List Transition) (found : Bool × Trace) :
    found.2.cycles.Within (ts.foldl (network.traceStep fuel tracing rule) found).2.cycles := by
  induction ts generalizing found with
  | nil => exact .refl _
  | cons t ts ihts => exact (cycles_of_traceStep ih tracing rule found t).trans (ihts _)

/-- A trace takes no cycle away. -/
theorem cycles_of_traceFrom (network : Network) (fuel : Nat) : ∀ tracing id (trace : Trace),
    trace.cycles.Within (network.traceFrom fuel tracing id trace).2.cycles := by
  induction fuel with
  | zero => exact fun _ _ trace => .refl _
  | succ fuel ih =>
      intro tracing id trace
      rw [traceFrom_succ]
      split
      · exact .refl _
      · split
        · exact .refl _
        · split
          · exact .refl _
          · exact cycles_of_fold ih tracing _ _ (false, { trace with visited := id :: trace.visited })

/-! ## Fuel -/

end Network

def Transition.callee? : Transition → Option Nat
  | .rule target _ _ _ => some target
  | _ => none

namespace Network

def callees (network : Network) : Finset Nat :=
  (network.transitions.filterMap Transition.callee?).toFinset

theorem callCount_eq (network : Network) :
    network.callCount = network.transitions.countP Transition.isCall := rfl

theorem card_callees_le (network : Network) : network.callees.card ≤ network.callCount := by
  refine (List.toFinset_card_le _).trans (Nat.le_of_eq ?_)
  rw [callCount_eq]
  induction network.transitions with
  | nil => rfl
  | cons t ts ih =>
      rw [List.countP_cons, ← ih]
      cases t <;> rfl

theorem mem_transitions {network : Network} {id : Nat} {state : State}
    (hstate : network.state? id = some state) {t : Transition} (ht : t ∈ state.transitions) :
    t ∈ network.transitions := by
  unfold transitions
  refine List.mem_flatMap.mpr ⟨state, ?_, ht⟩
  exact Array.mem_toList_iff.mpr (Array.mem_of_getElem? hstate)

theorem mem_callees {network : Network} {id target rule follow : Nat} {precedence : Int}
    (h : network.Inner id (.rule target rule precedence follow)) : target ∈ network.callees := by
  obtain ⟨state, hstate, -, ht⟩ := h
  rw [callees, List.mem_toFinset, List.mem_filterMap]
  exact ⟨_, mem_transitions hstate ht, rfl⟩

/-- A bound for the length of the paths that a trace has left: every rule that is not being
traced may be traced through all states, and the current one through those not visited. -/
def pathsLeft (network : Network) (tracing visited : List Nat) : Nat :=
  (network.callees \ tracing.toFinset).card * (network.size + 1) +
    (Finset.range network.size \ visited.toFinset).card + 1

theorem pathsLeft_le (network : Network) (tracing : List Nat) :
    network.pathsLeft tracing [] ≤ network.traceBound := by
  have h1 : (network.callees \ tracing.toFinset).card ≤ network.callCount :=
    (Finset.card_le_card Finset.sdiff_subset).trans network.card_callees_le
  have h2 : (Finset.range network.size \ ([] : List Nat).toFinset).card = network.size := by simp
  have h3 := Nat.mul_le_mul_right (network.size + 1) h1
  unfold pathsLeft traceBound
  rw [h2]
  calc (network.callees \ tracing.toFinset).card * (network.size + 1) + network.size + 1
      ≤ network.callCount * (network.size + 1) + network.size + 1 := by omega
    _ ≤ (network.callCount + 2) * (network.size + 2) := by
      rw [Nat.add_mul, Nat.mul_add, Nat.mul_add]
      omega

/-- A state that has not been visited shortens what is left. -/
theorem pathsLeft_visit {network : Network} {id : Nat} (hid : id < network.size)
    {tracing before visited : List Nat} (hnew : id ∉ before)
    (hsub : ∀ x ∈ id :: before, x ∈ visited) :
    network.pathsLeft tracing visited < network.pathsLeft tracing before := by
  have hlt : (Finset.range network.size \ visited.toFinset).card <
      (Finset.range network.size \ before.toFinset).card := by
    refine Finset.card_lt_card (Finset.ssubset_iff.mpr ⟨id, ?_, ?_⟩)
    · simp [hsub id (List.mem_cons_self ..)]
    · intro x hx
      rw [Finset.mem_insert, Finset.mem_sdiff, List.mem_toFinset] at hx
      rw [Finset.mem_sdiff, List.mem_toFinset]
      rcases hx with rfl | ⟨hx, hnot⟩
      · exact ⟨Finset.mem_range.mpr hid, hnew⟩
      · exact ⟨hx, fun h => hnot (hsub x (List.mem_cons_of_mem _ h))⟩
  unfold pathsLeft
  omega

/-- So does a rule that is not being traced, even if its trace begins anew. -/
theorem pathsLeft_call {network : Network} {target : Nat} (hcall : target ∈ network.callees)
    {tracing : List Nat} (hnew : target ∉ tracing) (visited : List Nat) :
    network.pathsLeft (target :: tracing) [] ≤ network.pathsLeft tracing visited := by
  have hlt : (network.callees \ (target :: tracing).toFinset).card <
      (network.callees \ tracing.toFinset).card := by
    refine Finset.card_lt_card (Finset.ssubset_iff.mpr ⟨target, ?_, ?_⟩)
    · simp
    · intro x hx
      rw [Finset.mem_insert, Finset.mem_sdiff, List.mem_toFinset, List.mem_cons, not_or] at hx
      rw [Finset.mem_sdiff, List.mem_toFinset]
      rcases hx with rfl | ⟨hx, -, hnot⟩
      · exact ⟨hcall, hnew⟩
      · exact ⟨hx, hnot⟩
  have hmul := Nat.mul_le_mul_right (network.size + 1) (Nat.succ_le_of_lt hlt)
  rw [Nat.succ_mul] at hmul
  have hsize : (Finset.range network.size \ ([] : List Nat).toFinset).card = network.size := by
    simp
  unfold pathsLeft
  rw [hsize]
  omega

/-! ## The postcondition of a trace -/

/-- A state has been visited, or it is the end of the rule and the answer says so. -/
def Reached (network : Network) (visited : List Nat) (ends : Bool) (id : Nat) : Prop :=
  id ∈ visited ∨ (network.IsStop id ∧ ends = true) ∨ network.state? id = none

/-- A rule has been traced from its start with enough fuel, and the cycles met on the way have been
kept. -/
def Cleared (network : Network) (cycles : Cycles) (tracing : List Nat) (start : Nat)
    (ends : Bool) : Prop :=
  ∃ fuel trace, network.pathsLeft tracing [] ≤ fuel ∧ trace.visited = [] ∧
    (network.traceFrom fuel tracing start trace).1 = ends ∧
    (network.traceFrom fuel tracing start trace).2.cycles.Within cycles

/-- A transition has been followed to where it leads. A call of a rule that is being traced leads
nowhere, but the rule is in a cycle then. -/
def Followed (network : Network) (cycles : Cycles) (tracing visited : List Nat) (ends : Bool) :
    Transition → Prop
  | .rule target callee _ follow =>
    (target ∈ tracing ∧ cycles.Holds callee) ∨
      (target ∉ tracing ∧ ∃ nullable, network.Cleared cycles (target :: tracing) target nullable ∧
        (nullable = true → network.Reached visited ends follow))
  | t => t.isEpsilon = true → network.Reached visited ends t.target

/-- What a trace has done when `before` were the states visited before it. -/
structure Traced (network : Network) (cycles : Cycles) (tracing before visited : List Nat)
    (ends : Bool) : Prop where
  grows : ∀ x ∈ before, x ∈ visited
  inner : ∀ x ∈ visited, x ∉ before → ¬network.IsStop x
  followed : ∀ x ∈ visited, x ∉ before → ∀ t, network.Inner x t →
    network.Followed cycles tracing visited ends t

theorem followed_of_not_call {t : Transition} (h : t.isCall = false) {network : Network}
    {cycles : Cycles} {tracing visited : List Nat} {ends : Bool} :
    network.Followed cycles tracing visited ends t ↔
      (t.isEpsilon = true → network.Reached visited ends t.target) := by
  cases t with
  | rule _ _ _ _ => cases h
  | _ => exact Iff.rfl

section Postcondition

variable {network : Network} {cycles : Cycles} {tracing before visited visited' : List Nat}
  {ends ends' : Bool}

theorem Reached.mono {id : Nat} (h : network.Reached visited ends id)
    (hvisited : ∀ x ∈ visited, x ∈ visited') (hends : ends = true → ends' = true) :
    network.Reached visited' ends' id := by
  rcases h with h | ⟨hstop, h⟩ | h
  · exact Or.inl (hvisited id h)
  · exact Or.inr (Or.inl ⟨hstop, hends h⟩)
  · exact Or.inr (Or.inr h)

theorem Followed.mono {t : Transition} (h : network.Followed cycles tracing visited ends t)
    (hvisited : ∀ x ∈ visited, x ∈ visited') (hends : ends = true → ends' = true) :
    network.Followed cycles tracing visited' ends' t := by
  cases hcall : t.isCall with
  | true =>
      cases t with
      | rule target rule precedence follow =>
          rcases h with h | ⟨hnew, nullable, hclear, hfollow⟩
          · exact Or.inl h
          · exact Or.inr ⟨hnew, nullable, hclear, fun hn => (hfollow hn).mono hvisited hends⟩
      | _ => cases hcall
  | false =>
      rw [followed_of_not_call hcall] at h ⊢
      exact fun heps => (h heps).mono hvisited hends

theorem Traced.refl : network.Traced cycles tracing before before ends :=
  ⟨fun _ h => h, fun _ h hn => absurd h hn, fun _ h hn => absurd h hn⟩

theorem Traced.mono (h : network.Traced cycles tracing before visited ends)
    (hends : ends = true → ends' = true) : network.Traced cycles tracing before visited ends' :=
  ⟨h.grows, h.inner, fun x hx hn t ht => (h.followed x hx hn t ht).mono (fun _ h => h) hends⟩

/-- Traces one after another make one trace. -/
theorem Traced.trans (h : network.Traced cycles tracing before visited ends)
    (h' : network.Traced cycles tracing visited visited' ends') (hends : ends = true → ends' = true) :
    network.Traced cycles tracing before visited' ends' := by
  refine ⟨fun x hx => h'.grows x (h.grows x hx), fun x hx hn => ?_, fun x hx hn t ht => ?_⟩
  · by_cases hv : x ∈ visited
    · exact h.inner x hv hn
    · exact h'.inner x hx hv
  · by_cases hv : x ∈ visited
    · exact (h.followed x hv hn t ht).mono h'.grows hends
    · exact h'.followed x hx hv t ht

end Postcondition

/-- What is to be shown of all traces with a given fuel. -/
def TracesWith (network : Network) (cycles : Cycles) (fuel : Nat) : Prop :=
  ∀ tracing id trace, network.pathsLeft tracing trace.visited ≤ fuel →
    (network.traceFrom fuel tracing id trace).2.cycles.Within cycles →
    network.Traced cycles tracing trace.visited
        (network.traceFrom fuel tracing id trace).2.visited
        (network.traceFrom fuel tracing id trace).1 ∧
      network.Reached (network.traceFrom fuel tracing id trace).2.visited
        (network.traceFrom fuel tracing id trace).1 id

section Step

variable {network : Network} {cycles : Cycles} {fuel : Nat} {tracing before : List Nat} {id : Nat}

/-- The trace of a rule that is called, and of what follows if it can be stepped over. -/
theorem traced_of_traceCall (ih : network.TracesWith cycles fuel) {found : Bool × Trace}
    (hleft : ∀ visited, (∀ x ∈ found.2.visited, x ∈ visited) →
      network.pathsLeft tracing visited ≤ fuel)
    {target callee follow : Nat} {precedence : Int}
    (ht : network.Inner id (.rule target callee precedence follow)) {rule : Nat}
    {result : Bool × Trace}
    (hresult : result = network.traceStep fuel tracing rule found
      (.rule target callee precedence follow))
    (hkept : result.2.cycles.Within cycles) :
    network.Traced cycles tracing found.2.visited result.2.visited result.1 ∧
      (found.1 = true → result.1 = true) ∧
      network.Followed cycles tracing result.2.visited result.1
        (.rule target callee precedence follow) := by
  simp only [traceStep] at hresult
  split at hresult
  · next hactive =>
    subst hresult
    have hholds := (Cycles.holds_add found.2.cycles rule callee).mono hkept
    exact ⟨Traced.refl, fun h => h, Or.inl ⟨List.contains_iff_mem.mp hactive, hholds⟩⟩
  · next hnot =>
    have hnew : target ∉ tracing := by simpa using hnot
    generalize hinner : network.traceFrom fuel (target :: tracing) target
      { found.2 with visited := [] } = inner at hresult
    have hcall := pathsLeft_call (mem_callees ht) hnew found.2.visited
    have hcleared : inner.2.cycles.Within cycles →
        network.Cleared cycles (target :: tracing) target inner.1 :=
      fun h => ⟨fuel, _, hcall.trans (hleft _ fun _ h => h), rfl, by rw [hinner],
        by rw [hinner]; exact h⟩
    split at hresult
    · next hends =>
      generalize hbehind : network.traceFrom fuel tracing follow
        { inner.2 with visited := found.2.visited } = behind at hresult
      subst hresult
      have hgrows := network.cycles_of_traceFrom fuel tracing follow
        { inner.2 with visited := found.2.visited }
      rw [hbehind] at hgrows
      obtain ⟨htraced, hreached⟩ := ih tracing follow { inner.2 with visited := found.2.visited }
        (hleft _ fun _ h => h) (by rw [hbehind]; exact hkept)
      rw [hbehind] at htraced hreached
      have hor : behind.1 = true → (found.1 || behind.1) = true := fun h =>
        Bool.or_eq_true_iff.mpr (Or.inr h)
      exact ⟨htraced.mono hor, fun h => Bool.or_eq_true_iff.mpr (Or.inl h), Or.inr ⟨hnew, inner.1,
        hcleared (hgrows.trans hkept), fun _ => hreached.mono (fun _ h => h) hor⟩⟩
    · next hends =>
      subst hresult
      exact ⟨Traced.refl, fun h => h,
        Or.inr ⟨hnew, inner.1, hcleared hkept, fun h => absurd h hends⟩⟩

theorem traced_of_traceStep (ih : network.TracesWith cycles fuel) (hid : id < network.size)
    (hnew : id ∉ before) (hfuel : network.pathsLeft tracing before ≤ fuel + 1)
    {found : Bool × Trace} (hvisited : ∀ x ∈ id :: before, x ∈ found.2.visited)
    {t : Transition} (ht : network.Inner id t) {rule : Nat}
    (hkept : (network.traceStep fuel tracing rule found t).2.cycles.Within cycles) :
    network.Traced cycles tracing found.2.visited
        (network.traceStep fuel tracing rule found t).2.visited
        (network.traceStep fuel tracing rule found t).1 ∧
      (found.1 = true → (network.traceStep fuel tracing rule found t).1 = true) ∧
      network.Followed cycles tracing (network.traceStep fuel tracing rule found t).2.visited
        (network.traceStep fuel tracing rule found t).1 t := by
  have hleft : ∀ visited, (∀ x ∈ found.2.visited, x ∈ visited) →
      network.pathsLeft tracing visited ≤ fuel := by
    intro visited h
    have := @pathsLeft_visit _ _ hid tracing _ _ hnew fun x hx => h x (hvisited x hx)
    omega
  cases hcall : t.isCall with
  | false =>
      rw [followed_of_not_call hcall]
      rw [traceStep_of_not_call hcall] at hkept ⊢
      split at hkept
      · next heps =>
        rw [if_pos heps]
        obtain ⟨htraced, hreached⟩ := ih tracing t.target found.2 (hleft _ fun _ h => h) hkept
        refine ⟨htraced.mono fun h => ?_, fun h => ?_, fun _ => hreached.mono (fun _ h => h) ?_⟩
        · exact Bool.or_eq_true_iff.mpr (Or.inr h)
        · exact Bool.or_eq_true_iff.mpr (Or.inl h)
        · exact fun h => Bool.or_eq_true_iff.mpr (Or.inr h)
      · next heps =>
        rw [if_neg heps]
        exact ⟨Traced.refl, fun h => h, fun h => absurd h heps⟩
  | true =>
      cases t with
      | rule target callee precedence follow =>
          exact traced_of_traceCall ih hleft ht rfl hkept
      | _ => cases hcall

theorem traced_of_fold (ih : network.TracesWith cycles fuel) (hid : id < network.size)
    (hnew : id ∉ before) (hfuel : network.pathsLeft tracing before ≤ fuel + 1) {rule : Nat}
    (ts : List Transition) (hts : ∀ t ∈ ts, network.Inner id t) {found : Bool × Trace}
    (hvisited : ∀ x ∈ id :: before, x ∈ found.2.visited) {result : Bool × Trace}
    (hresult : result = ts.foldl (network.traceStep fuel tracing rule) found)
    (hkept : result.2.cycles.Within cycles) :
    network.Traced cycles tracing found.2.visited result.2.visited result.1 ∧
      (found.1 = true → result.1 = true) ∧
      ∀ t ∈ ts, network.Followed cycles tracing result.2.visited result.1 t := by
  induction ts generalizing found with
  | nil =>
      subst hresult
      exact ⟨Traced.refl, fun h => h, fun t ht => absurd ht List.not_mem_nil⟩
  | cons t ts ihts =>
      rw [List.foldl_cons] at hresult
      have hmid : (network.traceStep fuel tracing rule found t).2.cycles.Within cycles :=
        (cycles_of_fold (cycles_of_traceFrom network fuel) tracing rule ts _).trans
          (by rw [← hresult]; exact hkept)
      obtain ⟨htraced, hends, hfollowed⟩ :=
        traced_of_traceStep ih hid hnew hfuel hvisited (hts t (List.mem_cons_self ..)) hmid
      obtain ⟨htraced', hends', hfollowed'⟩ :=
        ihts (fun u hu => hts u (List.mem_cons_of_mem _ hu))
          (fun x hx => htraced.grows x (hvisited x hx)) hresult
      refine ⟨htraced.trans htraced' hends', fun h => hends' (hends h), fun u hu => ?_⟩
      rcases List.mem_cons.mp hu with rfl | hu
      · exact hfollowed.mono htraced'.grows hends'
      · exact hfollowed' u hu

end Step

theorem tracesWith (network : Network) (cycles : Cycles) (fuel : Nat) :
    network.TracesWith cycles fuel := by
  induction fuel with
  | zero =>
      intro tracing id trace hfuel
      unfold pathsLeft at hfuel
      omega
  | succ fuel ih =>
      intro tracing id trace hfuel hkept
      rw [traceFrom_succ] at hkept ⊢
      split at hkept
      · next hnone => exact ⟨Traced.refl, Or.inr (Or.inr hnone)⟩
      · next state hstate =>
        split at hkept
        · next hstop =>
          rw [if_pos hstop]
          exact ⟨Traced.refl, Or.inr (Or.inl ⟨⟨state, hstate, hstop⟩, rfl⟩)⟩
        · next hstop =>
          rw [if_neg hstop]
          split at hkept
          · next hold =>
            rw [if_pos hold]
            exact ⟨Traced.refl, Or.inl (List.contains_iff_mem.mp hold)⟩
          · next hnew =>
            rw [if_neg hnew]
            have hnew : id ∉ trace.visited := fun h => hnew (List.contains_iff_mem.mpr h)
            have hid : id < network.size := (Array.getElem?_eq_some_iff.mp hstate).1
            have hinner : ∀ t ∈ state.transitions, network.Inner id t :=
              fun t ht => ⟨state, hstate, hstop, ht⟩
            obtain ⟨htraced, -, hfollowed⟩ := traced_of_fold ih hid hnew hfuel
              state.transitions hinner (fun x hx => hx) rfl hkept
            have hhere := htraced.grows id (List.mem_cons_self ..)
            refine ⟨⟨fun x hx => htraced.grows x (List.mem_cons_of_mem _ hx), ?_, ?_⟩,
              Or.inl hhere⟩
            · intro x hx hn
              by_cases hxid : x = id
              · rintro ⟨other, hother, hkind⟩
                rw [hxid, hstate, Option.some.injEq] at hother
                exact hstop (hother ▸ hkind)
              · exact htraced.inner x hx fun h => (List.mem_cons.mp h).elim hxid hn
            · intro x hx hn t ht
              by_cases hxid : x = id
              · obtain ⟨other, hother, -, ht⟩ := ht
                rw [hxid, hstate, Option.some.injEq] at hother
                exact hfollowed t (hother ▸ ht)
              · exact htraced.followed x hx (fun h => (List.mem_cons.mp h).elim hxid hn) t ht

/-! ## Rules that have been cleared -/

section Cleared

variable {network : Network} {cycles : Cycles} {tracing : List Nat} {start : Nat} {ends : Bool}

/-- A rule that has been cleared: all that can be reached in it has been followed. -/
theorem Cleared.closed (h : network.Cleared cycles tracing start ends) :
    ∃ visited, network.Reached visited ends start ∧ (∀ x ∈ visited, ¬network.IsStop x) ∧
      ∀ x ∈ visited, ∀ t, network.Inner x t →
        network.Followed cycles tracing visited ends t := by
  obtain ⟨fuel, trace, hfuel, hvisited, rfl, hkept⟩ := h
  obtain ⟨htraced, hreached⟩ :=
    network.tracesWith cycles fuel tracing start trace (by rw [hvisited]; exact hfuel) hkept
  rw [hvisited] at htraced
  exact ⟨_, hreached, fun x hx => htraced.inner x hx List.not_mem_nil,
    fun x hx => htraced.followed x hx List.not_mem_nil⟩

theorem Inner.not_stop {id : Nat} {t : Transition} (h : network.Inner id t) :
    ¬network.IsStop id := by
  obtain ⟨state, hstate, hkind, -⟩ := h
  rintro ⟨other, hother, hstop⟩
  rw [hstate, Option.some.injEq] at hother
  exact hkind (hother ▸ hstop)

/-- A state with a transition is only reached by a visit. -/
theorem Reached.mem {visited : List Nat} {id : Nat} {t : Transition}
    (h : network.Reached visited ends id) (ht : network.Inner id t) : id ∈ visited := by
  rcases h with h | ⟨hstop, -⟩ | hnone
  · exact h
  · exact absurd hstop ht.not_stop
  · obtain ⟨state, hstate, -⟩ := ht
    rw [hnone] at hstate
    cases hstate

/-- The end of a rule is only reached if the answer says so. -/
theorem Reached.ends_eq {visited : List Nat} {id : Nat} (h : network.Reached visited ends id)
    (hinner : ∀ x ∈ visited, ¬network.IsStop x) (hstop : network.IsStop id) : ends = true := by
  rcases h with h | ⟨-, h⟩ | hnone
  · exact absurd hstop (hinner id h)
  · exact h
  · obtain ⟨state, hstate, -⟩ := hstop
    rw [hnone] at hstate
    cases hstate

end Cleared

theorem cleared_of_fold {network : Network} (starts : List Nat) {trace : Trace} {cycles : Cycles}
    (h : (starts.foldl (fun trace start =>
      (network.traceFrom network.traceBound [start] start { trace with visited := [] }).2)
      trace).cycles.Within cycles) :
    trace.cycles.Within cycles ∧
      ∀ start ∈ starts, ∃ ends, network.Cleared cycles [start] start ends := by
  induction starts generalizing trace with
  | nil => exact ⟨h, fun start hs => absurd hs List.not_mem_nil⟩
  | cons start starts ih =>
      obtain ⟨hkept, hrest⟩ := ih h
      have hgrows := network.cycles_of_traceFrom network.traceBound [start] start
        { trace with visited := [] }
      refine ⟨hgrows.trans hkept, fun s hs => ?_⟩
      rcases List.mem_cons.mp hs with rfl | hs
      · exact ⟨_, _, _, network.pathsLeft_le [s], rfl, rfl, hkept⟩
      · exact hrest s hs

/-- Every rule is cleared from its start. -/
theorem cleared_of_start {network : Network} {rule start : Nat}
    (hstart : network.ruleStarts[rule]? = some start) :
    ∃ ends, network.Cleared network.cycles [start] start ends :=
  (cleared_of_fold network.ruleStarts.toList (.refl _)).2 start
    (Array.mem_toList_iff.mpr (Array.mem_of_getElem? hstart))

/-! ## Rules that can be stepped over

Whether a rule can end is found out unless it depends on a rule that is being traced. A way through
a rule may run through the rule itself, but the shortest one does not: ways are compared by how deep
their calls are nested. -/

/-- What can be reached within a rule without reading anything and with calls nested less than
`depth` deep. -/
inductive SilentBelow (network : Network) : Nat → Nat → Nat → Prop
  | refl (depth start : Nat) : SilentBelow network depth start start
  | pass {depth start id : Nat} {t : Transition} :
    SilentBelow network depth start id → network.Inner id t → t.isEpsilon = true →
      t.isCall = false → SilentBelow network depth start t.target
  | around {depth start id target rule follow stop : Nat} {precedence : Int} :
    SilentBelow network (depth + 1) start id →
      network.Inner id (.rule target rule precedence follow) →
        SilentBelow network depth target stop → network.IsStop stop →
          SilentBelow network (depth + 1) start follow

/-- A rule that can be stepped over with calls nested less than `depth` deep. -/
def EndsBelow (network : Network) (depth start : Nat) : Prop :=
  ∃ stop, network.SilentBelow depth start stop ∧ network.IsStop stop

theorem SilentBelow.mono {network : Network} {depth depth' start id : Nat}
    (h : network.SilentBelow depth start id) (hle : depth ≤ depth') :
    network.SilentBelow depth' start id := by
  induction h generalizing depth' with
  | refl => exact .refl _ _
  | pass _ ht heps hcall ih => exact .pass (ih hle) ht heps hcall
  | around _ ht _ hstop ih ihcallee =>
      obtain ⟨depth', rfl⟩ : ∃ d, depth' = d + 1 := ⟨depth' - 1, by omega⟩
      exact .around (ih hle) ht (ihcallee (by omega)) hstop

theorem Silent.exists_below {network : Network} {start id : Nat} (h : network.Silent start id) :
    ∃ depth, network.SilentBelow depth start id := by
  induction h with
  | refl start => exact ⟨0, .refl 0 start⟩
  | pass _ ht heps hcall ih =>
      obtain ⟨depth, ih⟩ := ih
      exact ⟨depth, .pass ih ht heps hcall⟩
  | around _ ht _ hstop ih ihcallee =>
      obtain ⟨depth, ih⟩ := ih
      obtain ⟨depth', ihcallee⟩ := ihcallee
      refine ⟨max depth depth' + 1, .around (ih.mono ?_) ht (ihcallee.mono ?_) hstop⟩
      · omega
      · omega

/-- Whether a rule is in a cycle under the number it is called by. -/
def Met (network : Network) (cycles : Cycles) (start : Nat) : Prop :=
  ∃ id rule precedence follow, network.Inner id (.rule start rule precedence follow) ∧
    cycles.Holds rule

section Rings

variable {network : Network} {cycles : Cycles}

/-- What can be reached in a rule is visited if none of the calls on the way is lost: each called
rule is new and known to end. -/
theorem SilentBelow.reached {visited tracing : List Nat} {ends : Bool} {depth start id : Nat}
    (h : network.SilentBelow depth start id) (hstart : network.Reached visited ends start)
    (hfollowed : ∀ x ∈ visited, ∀ t, network.Inner x t →
      network.Followed cycles tracing visited ends t)
    (hcalls : ∀ target callee precedence follow, ∀ x ∈ visited, depth ≠ 0 →
      network.Inner x (.rule target callee precedence follow) →
        network.EndsBelow (depth - 1) target → network.Reached visited ends follow) :
    network.Reached visited ends id := by
  induction h with
  | refl => exact hstart
  | pass _ ht heps hcall ih =>
      have hmem := (ih hstart hcalls).mem ht
      exact (followed_of_not_call hcall).mp (hfollowed _ hmem _ ht) heps
  | around _ ht hcallee hstop ih =>
      have hmem := (ih hstart hcalls).mem ht
      exact hcalls _ _ _ _ _ hmem (Nat.succ_ne_zero _) ht ⟨_, hcallee, hstop⟩

/-- A rule that can end is known to, unless a rule that is being traced is met. Of the rules in
`inside`, none can end as fast as the rule itself, so that they are not needed for it. -/
theorem Cleared.ends_of_endsBelow
    {tracing : List Nat} (hmet : ∀ s ∈ tracing, ¬network.Met cycles s) {depth : Nat} :
    ∀ (inside : List Nat) {start : Nat} {ends : Bool},
      network.Cleared cycles (start :: inside ++ tracing) start ends →
        (∀ s ∈ inside, ¬network.EndsBelow depth s) → network.EndsBelow depth start →
          ends = true := by
  induction depth with
  | zero =>
      intro inside start ends h _ ⟨stop, hsilent, hstop⟩
      obtain ⟨visited, hstart, hinner, hfollowed⟩ := h.closed
      exact (hsilent.reached hstart hfollowed fun _ _ _ _ _ _ h => absurd rfl h).ends_eq hinner hstop
  | succ depth ih =>
      intro inside start ends h hinside hends
      have hinside' : ∀ s ∈ inside, ¬network.EndsBelow depth s := by
        rintro s hs ⟨stop, hsilent, hstop⟩
        exact hinside s hs ⟨stop, hsilent.mono (Nat.le_succ depth), hstop⟩
      by_cases hfast : network.EndsBelow depth start
      · exact ih _ h hinside' hfast
      · obtain ⟨stop, hsilent, hstop⟩ := hends
        obtain ⟨visited, hstart, hinner, hfollowed⟩ := h.closed
        refine Reached.ends_eq (hsilent.reached hstart hfollowed ?_) hinner hstop
        intro target callee precedence follow x hx _ ht hfar
        rcases hfollowed x hx _ ht with ⟨hactive, hholds⟩ | ⟨-, nullable, hclear, hfollow⟩
        · -- the rule that is called is being traced, but it can end faster than those inside
          rcases List.mem_append.mp hactive with hmem | hmem
          · rcases List.mem_cons.mp hmem with rfl | hmem
            · exact absurd hfar hfast
            · exact absurd hfar (hinside' target hmem)
          · exact absurd ⟨x, callee, precedence, follow, ht, hholds⟩ (hmet target hmem)
        · refine hfollow (ih (start :: inside) hclear ?_ hfar)
          exact List.forall_mem_cons.mpr ⟨hfast, hinside'⟩

/-- What can be reached in a rule has been followed, unless a rule that is being traced is met. -/
theorem Cleared.followed {tracing : List Nat} (hmet : ∀ s ∈ tracing, ¬network.Met cycles s) {start : Nat}
    {ends : Bool} (h : network.Cleared cycles tracing start ends) {id : Nat}
    (hsilent : network.Silent start id) {t : Transition} (ht : network.Inner id t) :
    ∃ visited, network.Followed cycles tracing visited ends t := by
  obtain ⟨visited, hstart, -, hfollowed⟩ := h.closed
  obtain ⟨depth, hsilent⟩ := hsilent.exists_below
  refine ⟨visited, hfollowed id (Reached.mem (hsilent.reached hstart hfollowed ?_) ht) t ht⟩
  intro target callee precedence follow x hx _ ht hends
  rcases hfollowed x hx _ ht with ⟨hactive, hholds⟩ | ⟨-, nullable, hclear, hfollow⟩
  · exact absurd ⟨x, callee, precedence, follow, ht, hholds⟩ (hmet target hactive)
  · exact hfollow (Cleared.ends_of_endsBelow hmet [] hclear nofun hends)

/-- A rule that comes to call itself on its left calls a rule that is in a cycle, and is called by
it: the trace from its own start goes around the ring until it meets one. -/
theorem exists_met {rule start : Nat} (hstart : network.ruleStarts[rule]? = some start)
    (hring : Relation.TransGen network.LeftCall start start) :
    ∃ s, Relation.TransGen network.LeftCall start s ∧
      Relation.TransGen network.LeftCall s start ∧ network.Met network.cycles s := by
  by_contra hno
  have hmet : ∀ s, Relation.TransGen network.LeftCall start s →
      Relation.TransGen network.LeftCall s start → ¬network.Met network.cycles s :=
    fun s hto hback h => hno ⟨s, hto, hback, h⟩
  -- all that is being traced lies on the ring, and so does what is traced next
  suffices hwalk : ∀ {s : Nat}, Relation.TransGen network.LeftCall s start →
      Relation.ReflTransGen network.LeftCall start s → ∀ {tracing : List Nat} {ends : Bool},
        start ∈ tracing → (∀ x ∈ tracing, Relation.TransGen network.LeftCall start x ∧
          Relation.TransGen network.LeftCall x start) →
        ¬network.Cleared network.cycles tracing s ends by
    obtain ⟨ends, hclear⟩ := cleared_of_start hstart
    refine hwalk hring .refl (List.mem_singleton_self start) (fun x hx => ?_) hclear
    obtain rfl := List.mem_singleton.mp hx
    exact ⟨hring, hring⟩
  intro s hback
  induction hback using Relation.TransGen.head_induction_on with
  | single hcall =>
      intro hto tracing ends hmem hon hclear
      obtain ⟨id, callee, precedence, follow, hsilent, ht⟩ := hcall
      obtain ⟨visited, hfollowed⟩ := hclear.followed
        (fun x hx => hmet x (hon x hx).1 (hon x hx).2) hsilent ht
      rcases hfollowed with ⟨-, hholds⟩ | ⟨hnew, -⟩
      · exact hmet start hring hring ⟨id, callee, precedence, follow, ht, hholds⟩
      · exact hnew hmem
  | @head s next hcall hback ih =>
      intro hto tracing ends hmem hon hclear
      have hnext : Relation.TransGen network.LeftCall start next := .tail' hto hcall
      obtain ⟨id, callee, precedence, follow, hsilent, ht⟩ := hcall
      obtain ⟨visited, hfollowed⟩ := hclear.followed
        (fun x hx => hmet x (hon x hx).1 (hon x hx).2) hsilent ht
      rcases hfollowed with ⟨-, hholds⟩ | ⟨-, nullable, hinner, -⟩
      · exact hmet next hnext hback ⟨id, callee, precedence, follow, ht, hholds⟩
      · exact ih hnext.to_reflTransGen (List.mem_cons_of_mem _ hmem)
          (List.forall_mem_cons.mpr ⟨⟨hnext, hback⟩, hon⟩) hinner

end Rings

/-- No rule of a network without cycles calls itself on its left. -/
theorem not_leftRecursive {network : Network} (h : network.cycles = []) {rule start : Nat}
    (hstart : network.ruleStarts[rule]? = some start) :
    ¬Relation.TransGen network.LeftCall start start := by
  intro hring
  obtain ⟨s, -, -, id, callee, precedence, follow, -, cycle, hcycle, -⟩ := exists_met hstart hring
  rw [h] at hcycle
  cases hcycle

end Network

end GrammarCompiler
