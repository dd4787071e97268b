import GrammarCompiler.Proofs.Model.Laid
import GrammarCompiler.Proofs.Model.TestSet
import GrammarCompiler.Proofs.Network.Ways

/-!
# Settled choices

A choice is settled by one token if the lookahead of its decision tells all ways apart. Then the
test sets of the choice are those lookahead sets, and since no token is in two of them, a token
that is shown behind a way selects it (`Analyzed.settles`).
-/

namespace GrammarCompiler

namespace ParserModel

namespace Source

/-- The lookahead of a source is that of its network, and it is exact. -/
structure Analyzed (source : Source) : Prop where
  look : source.look = source.network.decisions.toList.map source.network.lookAt
  length : ∀ id state, source.network.state? id = some state →
    (source.network.decisionLook id).length = state.transitions.length
  exact : ∀ id state, source.network.state? id = some state →
    ∀ (i : Nat) (t : Transition) (set : IntervalSet), state.transitions[i]? = some t →
      (source.network.decisionLook id)[i]? = some (some set) →
      set.Canonical ∧ ¬source.network.Shows (t.target, []) Symbol.invalid ∧
        ∀ n, n ∈ set ↔ source.network.Shows (t.target, []) n

/-- The lookahead of a state that prefers to read little settles nothing. -/
theorem not_disjoint_replicate (n : Nat) :
    disjoint (List.replicate (n + 1) (none : Option IntervalSet)) = false := rfl

section Settles

variable {source : Source}

theorem Analyzed.lookOf (h : source.Analyzed) {d id : Nat}
    (hd : source.network.decisions[d]? = some id) :
    source.lookOf d = source.network.lookAt id := by
  unfold Source.lookOf
  rw [h.look, List.getElem?_map, Array.getElem?_toList, hd]
  rfl

/-- The lookahead of a settled decision, way by way. -/
theorem Analyzed.told (h : source.Analyzed) {id : Nat} {reluctant : Bool} {ts : List Transition}
    (hways : source.network.ways? id = some (reluctant, ts))
    (hdisjoint : disjoint (source.network.lookAt id) = true) :
    reluctant = false ∧ source.network.lookAt id = source.network.decisionLook id ∧
      (∀ (i : Nat) (t : Transition), ts[i]? = some t →
        ∃ set, (source.network.decisionLook id)[i]? = some (some set) ∧ set.Canonical ∧
          ¬source.network.Shows (t.target, []) Symbol.invalid ∧
          ∀ n, n ∈ set ↔ source.network.Shows (t.target, []) n) ∧
      (source.network.decisionLook id).Pairwise fun x y =>
        ∀ set set' n, x = some set → y = some set' → n ∈ set → n ∉ set' := by
  obtain ⟨state, hstate, -, hstateways⟩ := (Network.ways?_eq_some _).mp hways
  obtain ⟨rfl, rfl⟩ := Prod.mk.inj hstateways
  unfold Network.lookAt at hdisjoint ⊢
  rw [hstate] at hdisjoint ⊢
  dsimp only at hdisjoint ⊢
  cases hgreedy : state.nonGreedy with
  | true =>
      rw [hgreedy, if_pos rfl, not_disjoint_replicate] at hdisjoint
      cases hdisjoint
  | false =>
      rw [hgreedy, if_neg Bool.false_ne_true] at hdisjoint
      have hlength := h.length id state hstate
      have hentry : ∀ (i : Nat) (set : IntervalSet),
          (source.network.decisionLook id)[i]? = some (some set) →
          ∃ t, state.transitions[i]? = some t := by
        intro i set hset
        have hlt := (List.getElem?_eq_some_iff.mp hset).1
        rw [hlength] at hlt
        exact ⟨_, List.getElem?_eq_getElem hlt⟩
      have hcanonical : ∀ set, some set ∈ source.network.decisionLook id → set.Canonical := by
        intro set hset
        obtain ⟨i, hi⟩ := List.mem_iff_getElem?.mp hset
        obtain ⟨t, ht⟩ := hentry i set hi
        exact (h.exact id state hstate i t set ht hi).1
      obtain ⟨hsome, hpairs⟩ := disjoint_spec hcanonical hdisjoint
      refine ⟨rfl, rfl, fun i t ht => ?_, hpairs⟩
      have hlt : i < (source.network.decisionLook id).length := by
        rw [hlength]
        exact (List.getElem?_eq_some_iff.mp ht).1
      obtain ⟨set, hset⟩ := hsome _ (List.getElem_mem hlt)
      have hat : (source.network.decisionLook id)[i]? = some (some set) := by
        rw [List.getElem?_eq_getElem hlt, hset]
      exact ⟨set, hat, h.exact id state hstate i t set ht hat⟩

/-- A token selects the first of the ways before `count` in whose lookahead it is. -/
theorem findIdx?_look {look : IntervalSet.Look} (hpairs : look.Pairwise fun x y =>
      ∀ set set' n, x = some set → y = some set' → n ∈ set → n ∉ set')
    (hsome : ∀ (i : Nat) (entry : Option IntervalSet), look[i]? = some entry → ∃ set, entry = some set)
    {i : Nat} {set : IntervalSet} (hi : look[i]? = some (some set)) {n : Int} (hn : n ∈ set)
    (count : Nat) :
    ((look.map fun set => TestSet.ofSet (set.getD .empty) TestSet.machineWord).take count).findIdx?
        (·.tokens.contains n) = if i < count then some i else none := by
  have hhit : ∀ (j : Nat) (entry : Option IntervalSet), look[j]? = some entry →
      ((TestSet.ofSet (entry.getD .empty) TestSet.machineWord).tokens.contains n = true ↔ j = i) := by
    intro j entry hj
    obtain ⟨set', rfl⟩ := hsome j entry hj
    rw [List.contains_iff_mem, TestSet.mem_tokens_ofSet, Option.getD_some]
    constructor
    · intro hn'
      obtain ⟨hjlt, hjget⟩ := List.getElem?_eq_some_iff.mp hj
      obtain ⟨hilt, higet⟩ := List.getElem?_eq_some_iff.mp hi
      rcases Nat.lt_trichotomy j i with hlt | heq | hlt
      · exact absurd hn (List.pairwise_iff_getElem.mp hpairs j i hjlt hilt hlt _ _ n hjget higet hn')
      · exact heq
      · exact absurd hn' (List.pairwise_iff_getElem.mp hpairs i j hilt hjlt hlt _ _ n higet hjget hn)
    · rintro rfl
      rw [hi, Option.some.injEq, Option.some.injEq] at hj
      rw [← hj]
      exact hn
  have hilt := (List.getElem?_eq_some_iff.mp hi).1
  split
  · next hlt =>
      rw [List.findIdx?_eq_some_iff_getElem]
      refine ⟨by rw [List.length_take, List.length_map]; omega, ?_, fun j hj => ?_⟩
      · rw [List.getElem_take, List.getElem_map]
        exact (hhit i _ (List.getElem?_eq_getElem hilt)).mpr rfl
      · rw [List.getElem_take, List.getElem_map]
        intro hcontains
        have hjlt : j < look.length := by omega
        exact Nat.ne_of_lt hj ((hhit j _ (List.getElem?_eq_getElem hjlt)).mp hcontains)
  · next hge =>
      rw [List.findIdx?_eq_none_iff]
      intro test htest
      obtain ⟨j, hj⟩ := List.mem_iff_getElem?.mp htest
      rw [List.getElem?_take] at hj
      split at hj
      · next hjcount =>
          rw [List.getElem?_map] at hj
          obtain ⟨entry, hentry, rfl⟩ := Option.map_eq_some_iff.mp hj
          rw [Bool.eq_false_iff]
          intro hcontains
          have := (hhit j entry hentry).mp hcontains
          omega
      · cases hj

/-- The choice of a decision is settled by what is shown behind its ways, if they come in the
order of the alternatives, with the way out behind them. -/
theorem Analyzed.settles (h : source.Analyzed) {suffix : Option Suffix} {d id : Nat}
    {alts : List AltCode} (hd : source.network.decisions[d]? = some id) {reluctant : Bool}
    {ts : List Transition} (hways : source.network.ways? id = some (reluctant, ts))
    {targets : Nat → Nat} {exit : Option Nat}
    (htargets : reluctant = false → ∀ k < alts.length, ts[k]? = some (.epsilon (targets k)))
    (hexit : reluctant = false → ∀ e, exit = some e → ts[alts.length]? = some (.epsilon e)) :
    source.Settles (source.choice suffix d alts) targets exit := by
  have hlook := h.lookOf hd
  -- a choice of an LL1 kind is settled
  have hall : (source.choice suffix d alts).kind.isLL1 = true →
      ∀ (i : Nat) (target : Nat), (reluctant = false → ts[i]? = some (.epsilon target)) →
        ¬source.network.Shows (target, []) Symbol.invalid ∧
          ∀ n, source.network.Shows (target, []) n →
            (source.choice suffix d alts).dispatch n = if i < alts.length then some i else none := by
    intro hll1 i target htarget
    obtain ⟨hdisjoint, -, hchoice⟩ := settled_choice hll1
    rw [hlook] at hdisjoint hchoice
    obtain ⟨hgreedy, hlookAt, htold, hpairs⟩ := h.told hways hdisjoint
    rw [hlookAt] at hchoice
    obtain ⟨set, hset, -, hinvalid, hmem⟩ := htold i _ (htarget hgreedy)
    refine ⟨hinvalid, fun n hn => ?_⟩
    unfold Choice.dispatch
    rw [hchoice]
    refine findIdx?_look hpairs (fun j entry hj => ?_) hset ((hmem n).mpr hn) alts.length
    have hjlt := (List.getElem?_eq_some_iff.mp hj).1
    obtain ⟨state, hstate, -, hstateways⟩ := (Network.ways?_eq_some _).mp hways
    rw [h.length id state hstate] at hjlt
    obtain ⟨set', hset', -⟩ := htold j _
      (by rw [← (Prod.mk.inj hstateways).2]; exact List.getElem?_eq_getElem hjlt)
    exact ⟨set', Option.some.inj (hj.symm.trans hset')⟩
  constructor
  · intro hll1 k hk
    have hk' : k < alts.length := hk
    obtain ⟨hinvalid, hshows⟩ := hall hll1 k (targets k) fun hgreedy => htargets hgreedy k hk'
    rw [if_pos hk'] at hshows
    exact ⟨hinvalid, hshows⟩
  · intro hll1 e he
    obtain ⟨hinvalid, hshows⟩ := hall hll1 alts.length e fun hgreedy => hexit hgreedy e he
    rw [if_neg (Nat.lt_irrefl _)] at hshows
    exact ⟨hinvalid, hshows⟩

end Settles

end Source

end ParserModel

end GrammarCompiler
