import GrammarCompiler.Proofs.Network.Language
import GrammarCompiler.Proofs.Network.Readings
import GrammarCompiler.Proofs.Network.Search

/-!
# Rules that end without reading

A search with unknown callers notes the end of a rule only where its stack is empty: the end of a
rule that was called leads back to the caller and nowhere else. So such a search comes to where the
runs do that read nothing (`runs_iff_reaches`). Since the lexer reads characters only, and the end of
a rule is no character, a search finds the end just if there is a run to it
(`contains_look_ruleEnd`).
-/

namespace GrammarCompiler

namespace Network

/-! ## Searches and runs -/

/-- How the symbols that a rule begins with are searched if nothing is known about its callers. -/
abbrev ruleMode : LookMode :=
  followMode none false

/-- The state of a run and where its callers go on. -/
def Place.config (place : Place) : Config :=
  (place.state, place.callers.map (·.follow))

section Runs

variable {network : Network} {passes : Int → Int → Prop} {c d : Config} {a b : Place}

theorem ends_ruleMode {n : Int} : network.Ends ruleMode c n ↔
    network.IsStop c.1 ∧ c.2 = [] ∧ n = Symbol.ruleEnd := by
  have hending : ∀ state : State, LookMode.ending? ruleMode c.1 state c.2 =
      if state.kind = .ruleStop ∧ c.2 = [] then some Symbol.ruleEnd else none := by
    intro state
    simp [LookMode.ending?, ruleMode, followMode]
  constructor
  · rintro ⟨state, hstate, hends⟩
    rw [hending] at hends
    split at hends
    · next hstop => exact ⟨⟨state, hstate, hstop.1⟩, hstop.2, (Option.some.inj hends).symm⟩
    · cases hends
  · rintro ⟨⟨state, hstate, hstop⟩, hempty, rfl⟩
    exact ⟨state, hstate, by rw [hending, if_pos ⟨hstop, hempty⟩]⟩

/-- A search goes on within a rule from all of its states but the last. -/
theorem takes_ruleMode {t : Transition} : network.Takes ruleMode c t ↔ network.Inner c.1 t := by
  constructor
  · rintro ⟨⟨state, hstate, hempty, ht⟩, hgoes⟩
    refine ⟨state, hstate, fun hstop => ?_, ht⟩
    exact hgoes _ (ends_ruleMode.mpr ⟨⟨state, hstate, hstop⟩, hempty hstop, rfl⟩)
  · rintro ⟨state, hstate, hkind, ht⟩
    refine ⟨⟨state, hstate, fun hstop => absurd hstop hkind, ht⟩, fun n hends => ?_⟩
    obtain ⟨⟨other, hother, hstop⟩, -⟩ := ends_ruleMode.mp hends
    obtain rfl : other = state := Option.some.inj (hother.symm.trans hstate)
    exact hkind hstop

/-- Where a run goes without reading, a search goes too. -/
theorem Move.onward (h : Move network passes a [] b) : network.Onward ruleMode a.config b.config := by
  cases h with
  | pass ht heps hcall =>
      exact .along (takes_ruleMode.mpr ht) (.pass heps hcall fun _ => rfl)
  | call ht => exact .along (takes_ruleMode.mpr ht) .call
  | back hstop => exact .back hstop

theorem Runs.reaches {w : List Int} (h : Runs network passes a w b) (hw : w = []) :
    network.Reaches ruleMode a.config b.config := by
  induction h with
  | done => exact .refl
  | step hmove _ ih =>
      obtain ⟨rfl, rfl⟩ := List.append_eq_nil_iff.mp hw
      exact (ih rfl).head hmove.onward

/-- Where a search goes, a run goes without reading, if all predicates pass. -/
theorem Onward.exists_move (h : network.Onward ruleMode c d) (ha : a.config = c) :
    ∃ b : Place, b.config = d ∧ Move network (fun _ _ => True) a [] b := by
  obtain ⟨id, entry, callers⟩ := a
  cases h with
  | along htakes hleads =>
      subst ha
      have ht := takes_ruleMode.mp htakes
      cases hleads with
      | pass heps hcall =>
          exact ⟨_, rfl, .pass ht heps hcall (by unfold Passes; split <;> trivial)⟩
      | call => exact ⟨_, rfl, .call ht⟩
  | back hstop =>
      obtain ⟨rfl, hcallers⟩ := Prod.mk.inj ha
      cases callers with
      | nil => cases hcallers
      | cons caller callers =>
          obtain ⟨rfl, rfl⟩ := List.cons.inj hcallers
          exact ⟨_, rfl, .back hstop⟩

theorem Reaches.exists_runs (h : network.Reaches ruleMode c d) (ha : a.config = c) :
    ∃ b : Place, b.config = d ∧ Runs network (fun _ _ => True) a [] b := by
  induction h using Relation.ReflTransGen.head_induction_on generalizing a with
  | refl => exact ⟨a, ha, .done a⟩
  | head hstep _ ih =>
      obtain ⟨b, hb, hmove⟩ := Onward.exists_move hstep ha
      obtain ⟨final, hfinal, hruns⟩ := ih hb
      exact ⟨final, hfinal, .step hmove hruns⟩

/-- A search without callers comes to the states that the runs come to without reading. -/
theorem reaches_iff_runs {id goal : Nat} (entry : Int) :
    network.Reaches ruleMode (id, []) (goal, []) ↔
      Runs network (fun _ _ => True) ⟨id, entry, []⟩ [] ⟨goal, entry, []⟩ := by
  refine ⟨fun h => ?_, fun h => h.reaches rfl⟩
  obtain ⟨⟨final, entry', callers⟩, hfinal, hruns⟩ := h.exists_runs (a := ⟨id, entry, []⟩) rfl
  obtain ⟨rfl, hcallers⟩ := Prod.mk.inj hfinal
  obtain rfl := List.map_eq_nil_iff.mp hcallers
  obtain ⟨rfl, -⟩ := runs_iff_path.mp hruns
  exact hruns

end Runs

/-- If nothing else reads the end of a rule, a search from a state finds it just if there is a run
to the end of the rule that reads nothing. -/
theorem contains_look_ruleEnd {network : Network} (h : network.Searchable)
    (hreads : ∀ id t, network.Inner id t → ¬network.Reads t Symbol.ruleEnd) (start : Nat)
    (entry : Int) :
    (network.look start none none).contains Symbol.ruleEnd = true ↔
      ∃ stop, network.IsStop stop ∧
        Runs network (fun _ _ => True) ⟨start, entry, []⟩ [] ⟨stop, entry, []⟩ := by
  refine ((look_searchFrom h ruleMode start).2 Symbol.ruleEnd).trans ⟨?_, ?_⟩
  · rintro ⟨⟨stop, stack⟩, hreaches, hends | ⟨htakes, hreads' | ⟨-, hclosed⟩⟩⟩
    · obtain ⟨hstop, rfl, -⟩ := ends_ruleMode.mp hends
      exact ⟨stop, hstop, (reaches_iff_runs entry).mp hreaches⟩
    · exact absurd hreads' (hreads _ _ (takes_ruleMode.mp htakes))
  · rintro ⟨stop, hstop, hruns⟩
    exact ⟨(stop, []), (reaches_iff_runs entry).mpr hruns,
      .ending (ends_ruleMode.mpr ⟨hstop, rfl, rfl⟩)⟩

/-! ## The network of a lexer -/

theorem firstSymbol_nonneg (literal : Quotation) : 0 ≤ firstSymbol literal := by
  unfold firstSymbol
  cases literal.value.toList.head? with
  | none => exact Int.le_refl 0
  | some c => exact Int.natCast_nonneg _

section Characters

variable {dialect : Dialect} {e : Element} {n : Int}

theorem nonneg_of_inSet (hkind : dialect.kind = .lexer) (h : dialect.InSet e n) : 0 ≤ n := by
  induction h with
  | character => exact Int.natCast_nonneg _
  | range hfirst => exact Int.le_trans (firstSymbol_nonneg _) hfirst
  | literal hparser | token hparser =>
      rw [hkind] at hparser
      cases hparser
  | set _ _ ih => exact ih

/-- A lexer reads characters. -/
theorem nonneg_of_matches (hkind : dialect.kind = .lexer) (h : dialect.Matches e n) : 0 ≤ n := by
  have hleast : dialect.least = 0 := by
    unfold Dialect.least
    rw [hkind]
  cases h with
  | token _ _ _ hparser | literal _ hparser =>
      rw [hkind] at hparser
      cases hparser
  | range hfirst => exact Int.le_trans (firstSymbol_nonneg _) hfirst
  | wildcard hn | not hn => exact hleast ▸ hn
  | set hn => exact nonneg_of_inSet hkind hn

end Characters

theorem exists_reading {network : Network} {id : Nat} {t : Transition} {n : Int}
    (ht : network.Inner id t) (hn : network.Reads t n) :
    ∃ reading ∈ network.readings, network.Reads reading n := by
  have hreading : ∃ reading, t.reading? = some reading ∧ network.Reads reading n := by
    cases t <;> first | exact ⟨_, rfl, hn⟩ | exact hn.elim
  obtain ⟨reading, hreading, hreads⟩ := hreading
  exact ⟨reading, List.mem_filterMap.mpr ⟨t, ht.mem_transitions, hreading⟩, hreads⟩

/-- The network of a lexer reads characters. -/
theorem nonneg_of_reads {grammar : Grammar} (hg : grammar.Numbered) {vocabulary : Vocabulary}
    (hv : vocabulary.Fits) {id : Nat} {t : Transition} {n : Int}
    (ht : (ofGrammar grammar vocabulary .lexer).Inner id t)
    (hn : (ofGrammar grammar vocabulary .lexer).Reads t n) : 0 ≤ n := by
  obtain ⟨reading, hmem, hreads⟩ := exists_reading ht hn
  rw [readings_ofGrammar] at hmem
  obtain ⟨rule, -, hmem⟩ := List.mem_flatMap.mp hmem
  obtain ⟨definition, -, hmem⟩ := List.mem_flatMap.mp hmem
  obtain ⟨e, -, hmem⟩ := List.mem_flatMap.mp hmem
  have hhosts := hosts_ofGrammar hg hv .lexer fun _ _ => True
  generalize hscope : scopeOf grammar vocabulary .lexer rule definition = scope at hmem
  have hmatches := @Hosts.reads _ scope (fun _ _ => True) (by rw [← hscope]; exact hhosts) 0 e
  unfold Scope.readings at hmem
  split at hmem
  · next hreader =>
    obtain rfl := List.mem_singleton.mp hmem
    exact nonneg_of_matches (by rw [← hscope]; rfl) (((hmatches hreader).2.2 n).mp hreads)
  · obtain ⟨callee, -, rfl⟩ := List.mem_map.mp hmem
    exact hreads.elim
  · obtain ⟨c, -, rfl⟩ := List.mem_map.mp hmem
    obtain rfl : n = Symbol.ofChar c := hreads
    exact Int.natCast_nonneg _
  · cases hmem

section Vocabulary

variable (grammar : Grammar) (vocabulary vocabulary' : Vocabulary) (rule : Nat) (loop : Option Nat)

mutual
theorem addSymbols_lexer : ∀ (e : Element) (set : IntervalSet),
    addSymbols ⟨grammar, vocabulary, .lexer, rule, loop⟩ set e =
      addSymbols ⟨grammar, vocabulary', .lexer, rule, loop⟩ set e
  | .set elements _, set => by rw [addSymbols, addSymbols, addAllSymbols_lexer elements]
  | .quotation _, _ | .tokenRef _ _ _, _ | .block _ _ _, _ | .ruleRef _, _ | .range _ _ _, _
  | .wildcard _ _, _ | .not _ _, _ | .suffixed _ _ _ _, _ | .labeled _ _ _ _ _, _ | .action _, _
  | .predicate _, _ | .command _ _ _, _ | .epsilon _, _ => rfl

theorem addAllSymbols_lexer : ∀ (es : List Element) (set : IntervalSet),
    addAllSymbols ⟨grammar, vocabulary, .lexer, rule, loop⟩ set es =
      addAllSymbols ⟨grammar, vocabulary', .lexer, rule, loop⟩ set es
  | [], _ => rfl
  | e :: es, set => by
      rw [addAllSymbols, addAllSymbols, addSymbols_lexer e, addAllSymbols_lexer es]
end

theorem operandSymbols_lexer (e : Element) :
    operandSymbols ⟨grammar, vocabulary, .lexer, rule, loop⟩ e =
      operandSymbols ⟨grammar, vocabulary', .lexer, rule, loop⟩ e := by
  cases e with
  | set elements extent =>
      exact addAllSymbols_lexer grammar vocabulary vocabulary' rule loop elements .empty
  | _ => exact addSymbols_lexer grammar vocabulary vocabulary' rule loop _ .empty

theorem characters_lexer (cs : List Char) (previous : Nat) :
    Build.characters ⟨grammar, vocabulary, .lexer, rule, loop⟩ previous cs =
      Build.characters ⟨grammar, vocabulary', .lexer, rule, loop⟩ previous cs := by
  induction cs generalizing previous with
  | nil => rfl
  | cons c cs ih =>
      rw [Build.characters, Build.characters]
      simp only [ih]
      rfl

theorem word_lexer (text : String) :
    Build.word ⟨grammar, vocabulary, .lexer, rule, loop⟩ text =
      Build.word ⟨grammar, vocabulary', .lexer, rule, loop⟩ text := by
  unfold Build.word
  cases text.toList with
  | nil => rfl
  | cons c cs =>
      simp only [characters_lexer grammar vocabulary vocabulary']
      rfl

mutual
theorem element_lexer : ∀ e : Element,
    element ⟨grammar, vocabulary, .lexer, rule, loop⟩ e =
      element ⟨grammar, vocabulary', .lexer, rule, loop⟩ e
  | .block alts _ _ => by
      rw [element, element, altParts_lexer alts]
      rfl
  | .suffixed suffix greedy inner extent => by
      by_cases hblock : ∃ alts options x, inner = .block alts options x
      · obtain ⟨alts, options, x, rfl⟩ := hblock
        rw [element, element, altParts_lexer alts]
        rfl
      · have hne : ∀ alts options x, inner = .block alts options x → False :=
          fun alts options x hx => hblock ⟨alts, options, x, hx⟩
        rw [element, element, element_lexer inner]
        · rfl
        · exact hne
        · exact hne
  | .labeled _ _ _ inner _ => by rw [element, element, element_lexer inner]
  | .set elements _ => by
      rw [element, element, addAllSymbols_lexer grammar vocabulary vocabulary' rule loop elements]
      rfl
  | .not operand _ => by
      rw [element, element, operandSymbols_lexer grammar vocabulary vocabulary' rule loop operand]
      rfl
  | .quotation literal => word_lexer grammar vocabulary vocabulary' rule loop literal.value
  | .tokenRef _ _ _ | .wildcard _ _ | .ruleRef _ | .range _ _ _ | .action _ | .predicate _
  | .command _ _ _ | .epsilon _ => rfl

theorem elementParts_lexer : ∀ es : List Element,
    elementParts ⟨grammar, vocabulary, .lexer, rule, loop⟩ es =
      elementParts ⟨grammar, vocabulary', .lexer, rule, loop⟩ es
  | [] => rfl
  | e :: es => by rw [elementParts, elementParts, element_lexer e, elementParts_lexer es]

theorem alternative_lexer : ∀ alt : Alt,
    alternative ⟨grammar, vocabulary, .lexer, rule, loop⟩ alt =
      alternative ⟨grammar, vocabulary', .lexer, rule, loop⟩ alt
  | ⟨elements, _, _, _, _⟩ => by
      rw [alternative, alternative, elementParts_lexer elements]
      rfl

theorem altParts_lexer : ∀ alts : List Alt,
    altParts ⟨grammar, vocabulary, .lexer, rule, loop⟩ alts =
      altParts ⟨grammar, vocabulary', .lexer, rule, loop⟩ alts
  | [] => rfl
  | a :: as => by rw [altParts, altParts, alternative_lexer a, altParts_lexer as]
end

theorem buildRules_lexer (rules : List Rule) :
    buildRules grammar vocabulary .lexer rules = buildRules grammar vocabulary' .lexer rules := by
  have hrule : ∀ rule definition, buildRule grammar vocabulary .lexer rule definition =
      buildRule grammar vocabulary' .lexer rule definition := by
    intro rule definition
    unfold buildRule
    dsimp only
    rw [altParts_lexer grammar vocabulary vocabulary']
    rfl
  induction rules with
  | nil => rfl
  | cons rule rules ih => rw [buildRules, buildRules, ih, funext (hrule rule)]

/-- The network of a lexer does not depend on the types of tokens. -/
theorem ofGrammar_lexer :
    ofGrammar grammar vocabulary .lexer = ofGrammar grammar vocabulary' .lexer := by
  rw [ofGrammar_eq, ofGrammar_eq, built, buildRules_lexer grammar vocabulary vocabulary']
  rfl

end Vocabulary

end Network

end GrammarCompiler
