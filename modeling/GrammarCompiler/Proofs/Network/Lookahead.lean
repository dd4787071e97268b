import GrammarCompiler.Analysis
import GrammarCompiler.Proofs.Grammar.Built
import GrammarCompiler.Proofs.Network.Assembly

/-!
# One symbol of lookahead is exact

For a decision in the network of a parser without cycles of left calls, the lookahead of an
alternative is the set of the symbols that it can show, no more and no fewer. Only where there
are none of them, or where a predicate may come first, is there no set at all.
-/

namespace GrammarCompiler

open Text (maxInt32)

namespace Network

/-- What a search tells about an alternative, if it found what is shown there. -/
theorem alternative?_spec {search : Search} {shown : Int → Prop}
    (hcan : search.look.Canonical) (hmem : ∀ n, n ∈ search.look ↔ shown n) :
    (search.alternative? = none ↔ (∀ n, ¬shown n) ∨ shown Symbol.invalid) ∧
      ∀ set, search.alternative? = some set → set.Canonical ∧ ∀ n, n ∈ set ↔ shown n := by
  have hempty : search.look.isEmpty = true ↔ ∀ n, ¬shown n := by
    rw [IntervalSet.isEmpty_iff hcan]
    exact forall_congr' fun n => not_congr (hmem n)
  have hinvalid : search.look.contains Symbol.invalid = true ↔ shown Symbol.invalid :=
    hmem Symbol.invalid
  unfold Search.alternative?
  split
  · next h =>
      rw [Bool.or_eq_true, hempty, hinvalid] at h
      exact ⟨⟨fun _ => h, fun _ => rfl⟩, nofun⟩
  · next h =>
      rw [Bool.or_eq_true, hempty, hinvalid] at h
      refine ⟨⟨nofun, fun hno => absurd hno h⟩, ?_⟩
      rintro set hset
      obtain rfl := Option.some.inj hset
      exact ⟨hcan, hmem⟩

section Decisions

variable {network : Network} {id : Nat} {state : State}

theorem decisionLook_eq (hstate : network.state? id = some state) :
    network.decisionLook id =
      state.transitions.map fun t => (searchFrom network decisionMode t.target []).alternative? := by
  unfold decisionLook decisionSearches
  rw [hstate]
  simp

end Decisions

/-- The lookahead of a state has one entry for each of its transitions: what can be shown behind
it, unless that is nothing or begins with a predicate. -/
theorem decisionLook_exact {grammar other : Grammar} (hg : grammar.Built)
    (hsize : (Vocabulary.ofGrammar other).1.nextType ≤ maxInt32)
    (hcycles : (ofGrammar grammar (Vocabulary.ofGrammar other).1 .parser).cycles = [])
    {network : Network} (hnetwork : network = ofGrammar grammar (Vocabulary.ofGrammar other).1 .parser)
    {id : Nat} {state : State} (hstate : network.state? id = some state) :
    network.minSymbol = 1 ∧ network.maxSymbol = (Vocabulary.ofGrammar other).1.maxType ∧
      (network.decisionLook id).length = state.transitions.length ∧
      ∀ (i : Nat) (t : Transition), state.transitions[i]? = some t →
        ∃ entry, (network.decisionLook id)[i]? = some entry ∧
          (entry = none ↔
            (∀ n, ¬network.Shows (t.target, []) n) ∨
              network.Shows (t.target, []) Symbol.invalid) ∧
          ∀ set, entry = some set →
            set.Canonical ∧ ∀ n, n ∈ set ↔ network.Shows (t.target, []) n := by
  obtain ⟨hv, hmax⟩ := (Vocabulary.below_ofGrammar other).fits hsize
  have hnumbered := hg.steady.numbered
  obtain ⟨-, hsymbol, hkind, -⟩ := sound_ofGrammar hnumbered hv .parser
  have hsearchable := searchable_ofGrammar hnumbered hv hmax hcycles
  subst hnetwork
  have hlook := decisionLook_eq hstate
  refine ⟨?_, hsymbol, by rw [hlook, List.length_map], fun i t ht => ?_⟩
  · unfold minSymbol
    rw [hkind]
    rfl
  · obtain ⟨hcan, hmem⟩ := mem_searchFrom hsearchable t.target
    obtain ⟨hnone, hsome⟩ := alternative?_spec hcan hmem
    refine ⟨_, ?_, hnone, hsome⟩
    rw [hlook, List.getElem?_map, ht]
    rfl

/-- The choice between the alternatives of an optional block and what comes behind it. -/
theorem decisionLook_exact_optional :
    ∃ (grammar : Grammar) (report : Report) (state : State),
      Grammar.gather .empty "T.g" "parser grammar T; s : (A | B)? C | ;" = (some grammar, report) ∧
      let network := ofGrammar grammar (Vocabulary.ofGrammar grammar).1 .parser
      network.cycles = [] ∧ network.state? 6 = some state ∧
        (network.decisionLook 6).length = state.transitions.length ∧
        ∀ (i : Nat) (t : Transition), state.transitions[i]? = some t →
          ∃ entry, (network.decisionLook 6)[i]? = some entry ∧
            ∀ set, entry = some set → ∀ n, n ∈ set ↔ network.Shows (t.target, []) n := by
  have hgood :
      (Grammar.gather .empty "T.g" "parser grammar T; s : (A | B)? C | ;").1.any fun grammar =>
        let vocabulary := (Vocabulary.ofGrammar grammar).1
        let network := ofGrammar grammar vocabulary .parser
        vocabulary.nextType ≤ maxInt32 && network.cycles.isEmpty && (network.state? 6).isSome := by
    decide +kernel
  obtain ⟨grammar, hgrammar, hgood⟩ := (Option.any_eq_true _ _).mp hgood
  obtain ⟨⟨hsize, hcycles⟩, hsome⟩ : (_ ∧ _) ∧ _ := by simpa using hgood
  obtain ⟨state, hstate⟩ := Option.isSome_iff_exists.mp hsome
  obtain ⟨report, hgather⟩ : ∃ report,
      Grammar.gather .empty "T.g" "parser grammar T; s : (A | B)? C | ;" =
        (some grammar, report) :=
    ⟨_, Prod.ext hgrammar rfl⟩
  obtain ⟨-, -, hlength, hentry⟩ :=
    decisionLook_exact (.gathered hgather) hsize hcycles rfl hstate
  refine ⟨grammar, _, state, hgather, hcycles, hstate, hlength, fun i t ht => ?_⟩
  obtain ⟨entry, hat, -, hset⟩ := hentry i t ht
  exact ⟨entry, hat, fun set h => (hset set h).2⟩

end Network

end GrammarCompiler
