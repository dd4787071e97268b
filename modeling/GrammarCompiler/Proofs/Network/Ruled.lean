import GrammarCompiler.Proofs.Network.LeftCalls

/-!
# Rules and stacks

Transitions stay within a rule, unless they call another one, and then both its start and the
place to go on are where they should be (`Ruled`). So a search for lookahead knows more than its
stack: behind every entry of it stands a rule that has been called and in which nothing has been
read since (`Nested`). This ties the rules that a search counts as being called to its stack.
In a network without left recursion none of them is called again.
-/

namespace GrammarCompiler

namespace Network

/-! ## States and their rules -/

/-- A state belongs to a rule. The entry of a lexer belongs to none. -/
def HasRule (network : Network) (id rule : Nat) : Prop :=
  ∃ state, network.state? id = some state ∧ state.rule = rule ∧ state.kind ≠ .tokensStart

/-- A transition of a state of the rule `rule` leads to a state of that rule. A call leads to
the start of the rule that is called, and the caller goes on in its own rule. -/
def Stays (network : Network) (rule : Nat) : Transition → Prop
  | .rule target callee _ follow =>
    network.ruleStarts[callee]? = some target ∧ network.HasRule follow rule
  | t => network.HasRule t.target rule

/-- The start states belong to their rules, and only the ends of rules lead out of them, like the
entry of a lexer. What leads out of these reads nothing. -/
structure Ruled (network : Network) : Prop where
  starts : ∀ rule start, network.ruleStarts[rule]? = some start → network.HasRule start rule
  stays : ∀ id state, network.state? id = some state → state.kind.isBorder = false →
    ∀ t ∈ state.transitions, network.Stays state.rule t
  exits : ∀ id state, network.state? id = some state → state.kind.isBorder = true →
    ∀ t ∈ state.transitions, ∃ follow, t = .epsilon follow

theorem stays_of_not_call {t : Transition} (h : t.isCall = false) {network : Network}
    {rule : Nat} : network.Stays rule t ↔ network.HasRule t.target rule := by
  cases t with
  | rule _ _ _ _ => cases h
  | _ => exact Iff.rfl

theorem HasRule.eq {network : Network} {id rule rule' : Nat} (h : network.HasRule id rule)
    (h' : network.HasRule id rule') : rule = rule' := by
  obtain ⟨state, hstate, rfl, -⟩ := h
  obtain ⟨state', hstate', rfl, -⟩ := h'
  rw [hstate, Option.some.injEq] at hstate'
  rw [hstate']

theorem Ruled.inner {network : Network} (h : network.Ruled) {id rule : Nat} {t : Transition}
    (hrule : network.HasRule id rule) (ht : network.Inner id t) : network.Stays rule t := by
  obtain ⟨state, hstate, hkind, ht⟩ := ht
  obtain ⟨state', hstate', rfl, hentry⟩ := hrule
  obtain rfl : state' = state := Option.some.inj (hstate'.symm.trans hstate)
  exact h.stays id state' hstate (StateKind.isBorder_eq_false.mpr ⟨hkind, hentry⟩) t ht

/-- Where a call leads does not depend on the rule that it stands in. -/
theorem Ruled.start_of_call {network : Network} (h : network.Ruled)
    {id target rule follow : Nat} {precedence : Int}
    (ht : network.Inner id (.rule target rule precedence follow)) :
    network.ruleStarts[rule]? = some target := by
  obtain ⟨state, hstate, -, ht⟩ := ht
  cases hborder : state.kind.isBorder with
  | false => exact (h.stays id state hstate hborder _ ht).1
  | true =>
      obtain ⟨_, hepsilon⟩ := h.exits id state hstate hborder _ ht
      cases hepsilon

/-- All that can be reached within a rule belongs to it. -/
theorem Silent.hasRule {network : Network} (hruled : network.Ruled) {start id rule : Nat}
    (h : network.Silent start id) (hstart : network.HasRule start rule) :
    network.HasRule id rule := by
  induction h with
  | refl start => exact hstart
  | pass _ ht _ hcall ih => exact (stays_of_not_call hcall).mp (hruled.inner (ih hstart) ht)
  | around _ ht _ _ ih _ => exact (hruled.inner (ih hstart) ht).2

/-! ## Stacks and the rules being called -/

/-- Behind each entry of a stack stands a call: of the rule in `called`, from whose start the
state can be reached without reading anything. -/
inductive Nested (network : Network) : Nat → List Nat → List Nat → Prop
  | base (id : Nat) : Nested network id [] []
  | call {id caller target rule follow : Nat} {precedence : Int} {stack called : List Nat} :
    Nested network caller stack called →
      network.Inner caller (.rule target rule precedence follow) →
      network.Silent target id → Nested network id (follow :: stack) (rule :: called)

section Nested

variable {network : Network} {id : Nat} {stack called : List Nat}

/-- Nothing changes for a stack if the state moves on within its rule. -/
theorem Nested.move (h : network.Nested id stack called) {id' : Nat}
    (hmove : ∀ start, network.Silent start id → network.Silent start id') :
    network.Nested id' stack called := by
  cases h with
  | base => exact .base id'
  | call hcaller ht hs => exact .call hcaller ht (hmove _ hs)

theorem Nested.pass (h : network.Nested id stack called) {t : Transition}
    (ht : network.Inner id t) (heps : t.isEpsilon = true) (hcall : t.isCall = false) :
    network.Nested t.target stack called :=
  h.move fun _ hs => .pass hs ht heps hcall

theorem Nested.enter (h : network.Nested id stack called) {target rule follow : Nat}
    {precedence : Int} (ht : network.Inner id (.rule target rule precedence follow)) :
    network.Nested target (follow :: stack) (rule :: called) :=
  .call h ht (.refl target)

/-- The end of a rule goes back to the caller. The rule at whose end this is was the last one to
be called. -/
theorem Nested.back (hruled : network.Ruled) {follow rule : Nat}
    (h : network.Nested id (follow :: stack) called) (hstop : network.IsStop id)
    (hrule : network.HasRule id rule) :
    network.Nested follow stack (called.erase rule) := by
  cases h with
  | call hcaller ht hs =>
      have hcallee := hs.hasRule hruled (hruled.starts _ _ (hruled.start_of_call ht))
      rw [hrule.eq hcallee, List.erase_cons_head]
      exact hcaller.move fun _ hstart => .around hstart ht hs hstop

/-- A rule that is being called has come to the present state by calls on the left. -/
theorem Nested.leftCalls (hruled : network.Ruled) (h : network.Nested id stack called)
    {rule : Nat} (hrule : rule ∈ called) :
    ∃ start current, network.ruleStarts[rule]? = some start ∧
      Relation.ReflTransGen network.LeftCall start current ∧ network.Silent current id := by
  induction h with
  | base => cases hrule
  | call hcaller ht hs ih =>
      rcases List.mem_cons.mp hrule with rfl | hrule
      · exact ⟨_, _, hruled.start_of_call ht, .refl, hs⟩
      · obtain ⟨start, current, hstart, hcalls, hcurrent⟩ := ih hrule
        exact ⟨start, _, hstart, hcalls.tail ⟨_, _, _, _, hcurrent, ht⟩, hs⟩

/-- Without left recursion no rule is called while it is being called. -/
theorem Nested.not_mem_called (hruled : network.Ruled) (hcycles : network.cycles = [])
    (h : network.Nested id stack called) {target rule follow : Nat} {precedence : Int}
    (ht : network.Inner id (.rule target rule precedence follow)) : rule ∉ called := by
  intro hrule
  obtain ⟨start, current, hstart, hcalls, hcurrent⟩ := h.leftCalls hruled hrule
  have htarget := hruled.start_of_call ht
  rw [hstart, Option.some.injEq] at htarget
  subst htarget
  have hback : network.LeftCall current start := ⟨_, _, _, _, hcurrent, ht⟩
  exact not_leftRecursive hcycles hstart (Relation.TransGen.tail' hcalls hback)

theorem Nested.nodup (hruled : network.Ruled) (hcycles : network.cycles = [])
    (h : network.Nested id stack called) : called.Nodup := by
  induction h with
  | base => exact List.nodup_nil
  | call hcaller ht _ ih =>
      exact List.nodup_cons.mpr ⟨hcaller.not_mem_called hruled hcycles ht, ih⟩

theorem Nested.length_eq (h : network.Nested id stack called) :
    stack.length = called.length := by
  induction h with
  | base => rfl
  | call _ _ _ ih => rw [List.length_cons, List.length_cons, ih]

end Nested

end Network

end GrammarCompiler
