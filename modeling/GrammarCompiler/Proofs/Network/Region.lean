import GrammarCompiler.Proofs.Network.Config
import GrammarCompiler.Proofs.Network.Construction
import Mathlib.Data.List.InsertIdx

/-!
# Regions of a network under construction

A part is built behind the states there are, and its transitions stay behind them. So while a
part is built, the network is cut in two at the number `lo` of states there were: nothing
changes below it (`Keeps`), and what is above belongs to one rule and leads nowhere else
(`Within`), except that calls lead to the starts of rules.
-/

namespace GrammarCompiler

namespace Network

/-- Both ends of a part are in a range of states. -/
structure Handle.In (part : Handle) (lo hi : Nat) : Prop where
  left_ge : lo ≤ part.left
  left_lt : part.left < hi
  right_ge : lo ≤ part.right
  right_lt : part.right < hi

theorem Handle.In.mono {part : Handle} {lo hi hi' : Nat} (h : part.In lo hi) (hle : hi ≤ hi') :
    part.In lo hi' :=
  ⟨h.left_ge, Nat.lt_of_lt_of_le h.left_lt hle, h.right_ge, Nat.lt_of_lt_of_le h.right_lt hle⟩

/-- A transition leads to the states from `lo` on, or to the start of a rule and then on from
there. -/
def Stands (network : Network) (lo : Nat) : Transition → Prop
  | .rule target callee _ follow =>
    network.ruleStarts[callee]? = some target ∧ lo ≤ follow ∧ follow < network.size
  | t => lo ≤ t.target ∧ t.target < network.size

/-- What a network has besides its states and decisions. -/
def header (network : Network) :
    NetworkKind × Int × Array Nat × Array Nat × Array String × Option Nat :=
  (network.kind, network.maxSymbol, network.ruleStarts, network.ruleStops, network.ruleNames,
    network.tokensStart)

/-- The states from `lo` on belong to one rule and stay among themselves. -/
def Within (network : Network) (rule lo : Nat) : Prop :=
  ∀ id state, lo ≤ id → network.state? id = some state →
    state.rule = rule ∧ state.kind.isBorder = false ∧
      ∀ t ∈ state.transitions, network.Stands lo t ∧ LabelFits t

/-- A change of a network that leaves the states below `lo` alone. -/
structure Keeps (rule lo : Nat) (before after : Network) : Prop where
  size_le : before.size ≤ after.size
  header_eq : after.header = before.header
  below : ∀ id < lo, after.state? id = before.state? id
  within : before.Within rule lo → after.Within rule lo

section Keeps

variable {rule lo : Nat} {n n' n'' : Network}

theorem ruleStarts_of_header (h : n'.header = n.header) : n'.ruleStarts = n.ruleStarts :=
  congrArg (fun header => header.2.2.1) h

theorem Stands.mono {t : Transition} (h : n.Stands lo t) (hheader : n'.header = n.header)
    (hsize : n.size ≤ n'.size) : n'.Stands lo t := by
  cases t with
  | rule target callee precedence follow =>
      obtain ⟨hstart, hge, hlt⟩ := h
      exact ⟨by rw [ruleStarts_of_header hheader]; exact hstart, hge,
        Nat.lt_of_lt_of_le hlt hsize⟩
  | _ => exact ⟨h.1, Nat.lt_of_lt_of_le h.2 hsize⟩

theorem Keeps.refl (n : Network) : Keeps rule lo n n :=
  ⟨Nat.le_refl _, rfl, fun _ _ => rfl, fun h => h⟩

theorem Keeps.trans (h : Keeps rule lo n n') (h' : Keeps rule lo n' n'') :
    Keeps rule lo n n'' :=
  ⟨Nat.le_trans h.size_le h'.size_le, h'.header_eq.trans h.header_eq,
    fun id hid => (h'.below id hid).trans (h.below id hid), fun hw => h'.within (h.within hw)⟩

/-! ## Single changes -/

theorem state?_addState (n : Network) (kind : StateKind) (rule id : Nat) :
    (n.addState kind rule).state? id =
      if id = n.size then some { id := n.size, kind, rule } else n.state? id := by
  unfold addState state? size
  rw [Array.getElem?_push]

theorem state?_modifyState (n : Network) (id' : Nat) (f : State → State) (id : Nat) :
    (n.modifyState id' f).state? id = if id' = id then (n.state? id).map f else n.state? id := by
  unfold modifyState state?
  rw [Array.getElem?_modify]

theorem keeps_addState (hlo : lo ≤ n.size) {kind : StateKind} (hkind : kind.isBorder = false) :
    Keeps rule lo n (n.addState kind rule) := by
  have hsize : n.size ≤ (n.addState kind rule).size := by
    rw [size_addState]
    omega
  refine ⟨hsize, rfl, fun id hid => ?_, fun hw id state hid hstate => ?_⟩
  · rw [state?_addState, if_neg (by omega)]
  · rw [state?_addState] at hstate
    split at hstate
    · rw [Option.some.injEq] at hstate
      subst hstate
      exact ⟨rfl, hkind, fun t ht => absurd ht List.not_mem_nil⟩
    · obtain ⟨hrule, hkind, ht⟩ := hw id state hid hstate
      exact ⟨hrule, hkind, fun t h => ⟨(ht t h).1.mono rfl hsize, (ht t h).2⟩⟩

/-- A change of one state that brings no transition but `t`. -/
theorem keeps_modifyState {id : Nat} (hid : lo ≤ id) {f : State → State}
    (hrule : ∀ s, (f s).rule = s.rule) (hkind : ∀ s, (f s).kind = s.kind)
    (hts : ∀ s, ∀ t ∈ (f s).transitions, t ∈ s.transitions ∨ (n.Stands lo t ∧ LabelFits t)) :
    Keeps rule lo n (n.modifyState id f) := by
  have hsize : n.size ≤ (n.modifyState id f).size := Nat.le_of_eq (size_modifyState ..).symm
  refine ⟨hsize, rfl, fun id' hid' => ?_, fun hw id' state hid' hstate => ?_⟩
  · rw [state?_modifyState, if_neg (by omega)]
  · rw [state?_modifyState] at hstate
    split at hstate
    · obtain ⟨s, hs, rfl⟩ := Option.map_eq_some_iff.mp hstate
      obtain ⟨hr, hk, ht⟩ := hw id' s hid' hs
      refine ⟨(hrule s).trans hr, by rw [hkind]; exact hk, fun t h => ?_⟩
      obtain ⟨hstands, hfits⟩ : n.Stands lo t ∧ LabelFits t := (hts s t h).elim (ht t) fun h => h
      exact ⟨hstands.mono rfl hsize, hfits⟩
    · obtain ⟨hr, hk, ht⟩ := hw id' state hid' hstate
      exact ⟨hr, hk, fun t h => ⟨(ht t h).1.mono rfl hsize, (ht t h).2⟩⟩

/-- A change of one state that leaves its transitions alone. -/
theorem keeps_mark {id : Nat} (hid : lo ≤ id) {f : State → State}
    (hf : ∀ s, (f s).rule = s.rule ∧ (f s).kind = s.kind ∧ (f s).transitions = s.transitions) :
    Keeps rule lo n (n.modifyState id f) := by
  refine keeps_modifyState hid (fun s => (hf s).1) (fun s => (hf s).2.1) fun s t ht => Or.inl ?_
  rw [← (hf s).2.2]
  exact ht

theorem keeps_addTransition {id : Nat} (hid : lo ≤ id) {t : Transition} (ht : n.Stands lo t)
    (hfits : LabelFits t) : Keeps rule lo n (n.addTransition id t) := by
  refine keeps_modifyState hid (fun _ => rfl) (fun _ => rfl) fun s u hu => ?_
  rcases List.mem_append.mp hu with hu | hu
  · exact Or.inl hu
  · rw [List.mem_singleton.mp hu]
    exact Or.inr ⟨ht, hfits⟩

theorem keeps_insertTransition {id index : Nat} (hid : lo ≤ id) {t : Transition}
    (ht : n.Stands lo t) (hfits : LabelFits t) :
    Keeps rule lo n (n.insertTransition id index t) := by
  refine keeps_modifyState hid (fun _ => rfl) (fun _ => rfl) fun s u hu => ?_
  rcases List.eq_or_mem_of_mem_insertIdx hu with rfl | hu
  · exact Or.inr ⟨ht, hfits⟩
  · exact Or.inl hu

theorem keeps_link {source target : Nat} (hsource : lo ≤ source) (htarget : lo ≤ target)
    (hlt : target < n.size) : Keeps rule lo n (n.link source target) :=
  keeps_addTransition hsource ⟨htarget, hlt⟩ trivial

/-- A change that leaves the states alone. -/
theorem keeps_of_states (hstates : n'.states = n.states) (hheader : n'.header = n.header) :
    Keeps rule lo n n' := by
  have hstate : ∀ id, n'.state? id = n.state? id := fun id => by unfold state?; rw [hstates]
  have hsize : n.size ≤ n'.size := Nat.le_of_eq (congrArg Array.size hstates).symm
  refine ⟨hsize, hheader, fun id _ => hstate id, fun hw id state hid h => ?_⟩
  rw [hstate] at h
  obtain ⟨hr, hk, ht⟩ := hw id state hid h
  exact ⟨hr, hk, fun t h => ⟨(ht t h).1.mono hheader hsize, (ht t h).2⟩⟩

theorem keeps_decide {id : Nat} (hid : lo ≤ id) (token : Nat) (site : DecisionSite) :
    Keeps rule lo n (n.decide id token site) := by
  have h1 : Keeps rule lo n (n.modifyState id fun s => { s with token := some token }) :=
    keeps_mark hid fun _ => ⟨rfl, rfl, rfl⟩
  have h2 : ∀ (m : Network) (d : Nat),
      Keeps rule lo m (m.modifyState id fun s => { s with decision := some d }) := fun m d =>
    keeps_mark hid fun _ => ⟨rfl, rfl, rfl⟩
  exact (h1.trans (h2 _ n.decisionCount)).trans (keeps_of_states rfl rfl)

end Keeps

/-! ## Parts -/

section Parts

variable {rule lo : Nat} {n : Network} {parts : List Handle}

theorem keeps_single (hlo : lo ≤ n.size) {t : Transition}
    (ht : ((n.addState .basic rule).addState .basic rule).Stands lo t) (hfits : LabelFits t) :
    Keeps rule lo n (n.single rule t) := by
  have hlo' : lo ≤ (n.addState .basic rule).size := by
    rw [size_addState]
    omega
  exact ((keeps_addState hlo (by decide)).trans (keeps_addState hlo' (by decide))).trans
    (keeps_addTransition hlo ht hfits)

theorem keeps_chain (hparts : ∀ p ∈ parts, p.In lo n.size) : Keeps rule lo n (n.chain parts) := by
  induction parts generalizing n with
  | nil => exact Keeps.refl n
  | cons a rest ih =>
      cases rest with
      | nil => exact Keeps.refl n
      | cons b rest =>
          obtain ⟨ha, hrest⟩ := List.forall_mem_cons.mp hparts
          have hb := hrest b (List.mem_cons_self ..)
          have hlink : Keeps rule lo n (n.link a.right b.left) :=
            keeps_link ha.right_ge hb.left_ge hb.left_lt
          exact hlink.trans (ih fun p hp => (hrest p hp).mono hlink.size_le)

theorem keeps_fan {start finish : Nat} (hstart : lo ≤ start) (hfinish : lo ≤ finish)
    (hlt : finish < n.size) (hparts : ∀ p ∈ parts, p.In lo n.size) :
    Keeps rule lo n (fan start finish n parts) := by
  induction parts generalizing n with
  | nil => exact Keeps.refl n
  | cons part parts ih =>
      obtain ⟨hpart, hrest⟩ := List.forall_mem_cons.mp hparts
      have h1 : Keeps rule lo n (n.link start part.left) :=
        keeps_link hstart hpart.left_ge hpart.left_lt
      have h2 : Keeps rule lo (n.link start part.left)
          ((n.link start part.left).link part.right finish) :=
        keeps_link hpart.right_ge hfinish (Nat.lt_of_lt_of_le hlt h1.size_le)
      have h12 := h1.trans h2
      exact h12.trans (ih (Nat.lt_of_lt_of_le hlt h12.size_le)
        fun p hp => (hrest p hp).mono h12.size_le)

theorem keeps_block {start : Nat} (hstart : lo ≤ start) (hlt : start < n.size)
    (hparts : ∀ p ∈ parts, p.In lo n.size) : Keeps rule lo n (n.block rule start parts) := by
  have hlo : lo ≤ n.size := by omega
  have h1 : Keeps rule lo n (n.addState .blockEnd rule) := keeps_addState hlo (by decide)
  have h2 : Keeps rule lo (n.addState .blockEnd rule)
      ((n.addState .blockEnd rule).modifyState start fun s =>
        { s with endState := some n.size }) :=
    keeps_mark hstart fun _ => ⟨rfl, rfl, rfl⟩
  have h12 := h1.trans h2
  have hfinish : n.size < ((n.addState .blockEnd rule).modifyState start fun s =>
      { s with endState := some n.size }).size := by
    rw [size_modifyState, size_addState]
    omega
  exact h12.trans (keeps_fan hstart hlo hfinish fun p hp => (hparts p hp).mono h12.size_le)

theorem keeps_decideAmong {id : Nat} (hid : lo ≤ id) (parts : List Handle) (token : Nat)
    (site : DecisionSite) :
    Keeps rule lo n (n.decideAmong id token site parts) := by
  unfold decideAmong
  split
  · exact keeps_decide hid token site
  · exact Keeps.refl n

theorem keeps_choice (hlo : lo ≤ n.size) (hparts : ∀ p ∈ parts, p.In lo n.size) (token : Nat)
    (site : DecisionSite) : Keeps rule lo n (n.choice rule token site parts) := by
  have h1 : Keeps rule lo n (n.addState .basicBlockStart rule) := keeps_addState hlo (by decide)
  have h12 := h1.trans (keeps_decide hlo token site)
  have hlt : n.size < ((n.addState .basicBlockStart rule).decide n.size token site).size := by
    rw [size_decide, size_addState]
    omega
  exact h12.trans (keeps_block hlo hlt fun p hp => (hparts p hp).mono h12.size_le)

theorem keeps_twoWays {id again finish : Nat} (hid : lo ≤ id) (hagain : lo ≤ again)
    (hagain' : again < n.size) (hfinish : lo ≤ finish) (hfinish' : finish < n.size)
    (greedy : Bool) : Keeps rule lo n (n.twoWays id again finish greedy) := by
  unfold twoWays
  split
  · exact (keeps_link hid hagain hagain').trans
      (keeps_link hid hfinish (by rw [size_link]; exact hfinish'))
  · exact (keeps_link hid hfinish hfinish').trans
      (keeps_link hid hagain (by rw [size_link]; exact hagain'))

theorem keeps_optional (hlo : lo ≤ n.size) (hparts : ∀ p ∈ parts, p.In lo n.size)
    (greedy : Bool) (token : Nat) : Keeps rule lo n (n.optional rule greedy token parts) := by
  have h1 : Keeps rule lo n ((n.choice rule token .optional parts).modifyState n.size fun s =>
      { s with nonGreedy := !greedy }) :=
    (keeps_choice hlo hparts token .optional).trans
      (keeps_mark hlo fun _ => ⟨rfl, rfl, rfl⟩)
  have hlt : n.size + 1 < ((n.choice rule token .optional parts).modifyState n.size fun s =>
      { s with nonGreedy := !greedy }).size := by
    rw [size_modifyState, size_choice]
    omega
  unfold optional
  simp only
  split
  · exact h1.trans (keeps_link hlo (by omega) hlt)
  · exact h1.trans (keeps_insertTransition hlo ⟨by simp only [Transition.target]; omega, hlt⟩
      trivial)

/-- The start of a loop and its block. -/
theorem keeps_startBlock (hlo : lo ≤ n.size) (hparts : ∀ p ∈ parts, p.In lo n.size)
    {kind : StateKind} (hkind : kind.isBorder = false) (token : Nat) (site : DecisionSite) :
    Keeps rule lo n (((n.addState kind rule).decideAmong n.size token site parts).block rule
      n.size parts) := by
  have h1 : Keeps rule lo n (n.addState kind rule) := keeps_addState hlo hkind
  have h12 := h1.trans (keeps_decideAmong hlo parts token site)
  have hlt : n.size < ((n.addState kind rule).decideAmong n.size token site parts).size := by
    rw [size_decideAmong, size_addState]
    omega
  exact h12.trans (keeps_block hlo hlt fun p hp => (hparts p hp).mono h12.size_le)

theorem keeps_starStates {scope : Scope} (hrule : scope.rule = rule) (hlo : lo ≤ n.size)
    (hparts : ∀ p ∈ parts, p.In lo n.size) (greedy : Bool) (token first : Nat) :
    Keeps rule lo n (n.starStates scope greedy token first parts) := by
  subst hrule
  have hentry : lo ≤ n.size + 2 := by omega
  unfold starStates
  dsimp only
  -- from the last change back to the first
  refine .trans ?_ (keeps_mark (by omega) fun _ => ⟨rfl, rfl, rfl⟩)
  refine .trans ?_ (keeps_mark hentry fun _ => ⟨rfl, rfl, rfl⟩)
  refine .trans ?_ (keeps_addState ?_ (by decide))
  · refine .trans ?_ (keeps_addState ?_ (by decide))
    · refine .trans ?_ (keeps_decide hentry _ _)
      refine .trans ?_ (keeps_mark hentry fun _ => ⟨rfl, rfl, rfl⟩)
      refine .trans ?_ (keeps_addState ?_ (by decide))
      · exact keeps_startBlock hlo hparts (by decide) token .starBlock
      · simp only [size_block, size_decideAmong, size_addState]
        omega
    · simp only [size_decide, size_modifyState, size_block, size_decideAmong, size_addState]
      omega
  · simp only [size_decide, size_modifyState, size_block, size_decideAmong, size_addState]
    omega

theorem keeps_star {scope : Scope} (hrule : scope.rule = rule) (hlo : lo ≤ n.size)
    (hparts : ∀ p ∈ parts, p.In lo n.size) (greedy : Bool) (token first : Nat) :
    Keeps rule lo n (n.star scope greedy token first parts) := by
  unfold star
  dsimp only
  have h1 := keeps_starStates hrule hlo hparts greedy token first
  have hsize := n.size_starStates scope greedy token first parts
  generalize n.starStates scope greedy token first parts = m at h1 hsize ⊢
  have h2 : Keeps rule lo m (m.twoWays (n.size + 2) n.size (n.size + 3) greedy) :=
    keeps_twoWays (by omega) hlo (by omega) (by omega) (by omega) greedy
  have h3 : Keeps rule lo (m.twoWays (n.size + 2) n.size (n.size + 3) greedy)
      ((m.twoWays (n.size + 2) n.size (n.size + 3) greedy).link (n.size + 1) (n.size + 4)) :=
    keeps_link (by omega) (by omega) (by rw [size_twoWays]; omega)
  exact ((h1.trans h2).trans h3).trans
    (keeps_link (by omega) (by omega) (by rw [size_link, size_twoWays]; omega))

theorem keeps_plusStates {scope : Scope} (hrule : scope.rule = rule) (hlo : lo ≤ n.size)
    (hparts : ∀ p ∈ parts, p.In lo n.size) (greedy : Bool) (token first : Nat) :
    Keeps rule lo n (n.plusStates scope greedy token first parts) := by
  subst hrule
  have hback : lo ≤ n.size + 2 := by omega
  unfold plusStates
  dsimp only
  refine .trans ?_ (keeps_mark hback fun _ => ⟨rfl, rfl, rfl⟩)
  refine .trans ?_ (keeps_mark (by omega) fun _ => ⟨rfl, rfl, rfl⟩)
  refine .trans ?_ (keeps_mark hlo fun _ => ⟨rfl, rfl, rfl⟩)
  refine .trans ?_ (keeps_addState ?_ (by decide))
  · refine .trans ?_ (keeps_decide hback _ _)
    refine .trans ?_ (keeps_mark hback fun _ => ⟨rfl, rfl, rfl⟩)
    refine .trans ?_ (keeps_addState ?_ (by decide))
    · exact keeps_startBlock hlo hparts (by decide) token .plusBlock
    · simp only [size_block, size_decideAmong, size_addState]
      omega
  · simp only [size_decide, size_modifyState, size_block, size_decideAmong, size_addState]
    omega

theorem keeps_plus {scope : Scope} (hrule : scope.rule = rule) (hlo : lo ≤ n.size)
    (hparts : ∀ p ∈ parts, p.In lo n.size) (greedy : Bool) (token first : Nat) :
    Keeps rule lo n (n.plus scope greedy token first parts) := by
  unfold plus
  dsimp only
  have h1 := keeps_plusStates hrule hlo hparts greedy token first
  have hsize := n.size_plusStates scope greedy token first parts
  generalize n.plusStates scope greedy token first parts = m at h1 hsize ⊢
  have h2 : Keeps rule lo m (m.link (n.size + 1) (n.size + 2)) :=
    keeps_link (by omega) (by omega) (by omega)
  exact (h1.trans h2).trans (keeps_twoWays (by omega) hlo (by rw [size_link]; omega) (by omega)
    (by rw [size_link]; omega) greedy)

end Parts

end Network

end GrammarCompiler
