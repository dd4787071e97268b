import GrammarCompiler.Proofs.Grammar.Apart
import GrammarCompiler.Proofs.Network.Housing

/-!
# The decisions of a parser

The decisions about a rule have the keys of its definition, in their order. Where constructs are
told apart, every decision is found again by its key (`decided_ofGrammar`).
-/

namespace GrammarCompiler

namespace Network

/-! ## Keys of decisions that were made -/

section Placed

variable {network : Network} {scope : Scope}

theorem Chosen.keys {token : Nat} {site : DecisionSite} {parts : List Handle} {whole : Handle}
    {made : List Made} (h : Chosen network token site parts whole made) :
    made.map (·.1) = choiceKeys token site parts.length := by
  cases h with
  | alone => rfl
  | among hone => rw [choiceKeys, if_neg hone]; rfl

theorem map_among (token : Nat) (site : DecisionSite) (count id : Nat) :
    (among token site count id).map (·.1) = if 1 < count then [(token, site)] else [] := by
  unfold among
  split <;> rfl

theorem Under.keys {token first : Nat} {greedy : Bool} {suffix : Suffix} {parts : List Handle}
    {whole : Handle} {made : List Made}
    (h : Under network token first greedy suffix parts whole made) :
    made.map (·.1) = suffix.keys token first parts.length := by
  cases h with
  | optional => rfl
  | star => rw [List.map_append, map_among]; rfl
  | plus => rw [List.map_append, map_among]; rfl

theorem PlacedAlts.length {alts : List Alt} {parts : List Handle} {made : List Made}
    (h : PlacedAlts network scope alts parts made) : parts.length = alts.length := by
  induction alts generalizing parts made with
  | nil => cases h; rfl
  | cons alt alts ih =>
      cases h with
      | cons _ _ hrest => rw [List.length_cons, List.length_cons, ih hrest]

theorem Leaf.keys {target : Nat} {e : Element} {t : Transition}
    (h : Leaf network scope target e t) : e.keys = [] := by
  cases h with
  | reads h => cases e <;> first | rfl | cases h
  | call h => cases e <;> first | rfl | cases h
  | missing h => cases e <;> first | rfl | cases h
  | _ => rfl

mutual
theorem Placed.keys : ∀ {e : Element} {part : Handle} {made : List Made},
    Placed network scope e part made → made.map (·.1) = e.keys
  | _, _, _, .leaf hleaf _ => hleaf.keys.symm
  | _, _, _, .word .. => rfl
  | _, _, _, .noWord .. => rfl
  | _, _, _, .labeled h => h.keys
  | _, _, _, .block halts hchosen => by
      rw [List.map_append, halts.keys, hchosen.keys, halts.length, Element.keys]
  | _, _, _, .blockUnder halts hunder => by
      rw [List.map_append, halts.keys, hunder.keys, halts.length, Element.keys]
  | _, _, _, .under hblock h hunder => by
      rw [List.map_append, h.keys, hunder.keys, Element.keys]
      · rfl
      · exact hblock

theorem PlacedRow.keys : ∀ {es : List Element} {parts : List Handle} {made : List Made},
    PlacedRow network scope es parts made → made.map (·.1) = Element.listKeys es
  | _, _, _, .nil => rfl
  | _, _, _, .cons h hrest => by
      rw [List.map_append, h.keys, hrest.keys, Element.listKeys]

theorem PlacedAlts.keys : ∀ {alts : List Alt} {parts : List Handle} {made : List Made},
    PlacedAlts network scope alts parts made → made.map (·.1) = Alt.listKeys alts
  | _, _, _, .nil => rfl
  | ⟨_, _, _, _, _⟩ :: _, _, _, .cons h _ hrest => by
      rw [List.map_append, h.keys, hrest.keys, Alt.listKeys, Alt.keys]
end

theorem Housed.keys {definition : RuleDef} {made : List Made}
    (h : Housed network scope definition made) : made.map (·.1) = definition.keys := by
  cases h with
  | mk _ _ _ halts hchosen =>
      rw [List.map_append, halts.keys, hchosen.keys, halts.length]
      rfl

end Placed

theorem HousedAll.keys {grammar : Grammar} {vocabulary : Vocabulary} {kind : NetworkKind}
    {network : Network} {rules : List Rule} {made : List Made}
    (h : HousedAll grammar vocabulary kind network rules made) :
    made.map (·.1) = (rules.filterMap grammar.definition?).flatMap RuleDef.keys := by
  induction h with
  | nil => rfl
  | undefined hnone _ ih => rw [ih, List.filterMap_cons_none hnone]
  | cons hsome hhoused _ ih =>
      rw [List.map_append, hhoused.keys, ih, List.filterMap_cons_some hsome, List.flatMap_cons]

/-! ## Filing -/

theorem lookup_setSite (key : Nat × DecisionSite) (d : Nat)
    (sites : List ((Nat × DecisionSite) × Nat)) (key' : Nat × DecisionSite) :
    (setSite key d sites).lookup key' = if key' = key then some d else sites.lookup key' := by
  induction sites with
  | nil => rw [setSite, List.lookup_cons, List.lookup_nil, beq_eq_decide]; split <;> simp_all
  | cons site rest ih =>
      obtain ⟨k, e⟩ := site
      rw [setSite]
      split
      · next hk =>
          subst hk
          simp only [List.lookup_cons]
          split <;> simp_all
      · next hk =>
          simp only [List.lookup_cons, ih]
          split <;> simp_all

theorem lookup_foldl_file_of_notMem {made : List Made} {key : Nat × DecisionSite}
    (h : key ∉ made.map (·.1)) (record : Record) :
    (made.foldl file record).sites.lookup key = record.sites.lookup key := by
  induction made generalizing record with
  | nil => rfl
  | cons m made ih =>
      rw [List.map_cons, List.mem_cons, not_or] at h
      rw [List.foldl_cons, ih h.2]
      exact (lookup_setSite ..).trans (if_neg h.1)

/-- What is filed under a key of its own is found there. -/
theorem lookup_foldl_file {made : List Made} (h : (made.map (·.1)).Nodup) (record : Record)
    {i : Nat} {m : Made} (hm : made[i]? = some m) :
    (made.foldl file record).sites.lookup m.1 = some (record.decisions.length + i) := by
  induction made generalizing record i with
  | nil => cases hm
  | cons first made ih =>
      obtain ⟨hfirst, h⟩ := List.nodup_cons.mp h
      rw [List.foldl_cons]
      cases i with
      | zero =>
          obtain rfl := Option.some.inj hm
          rw [lookup_foldl_file_of_notMem hfirst]
          exact (lookup_setSite ..).trans (if_pos rfl)
      | succ i =>
          rw [ih h _ hm]
          simp only [file, List.length_append, List.length_singleton]
          congr 1
          omega

/-- A decision that has been filed is found, or another one in its place. -/
theorem isSome_lookup_foldl_file {made : List Made} (record : Record) {key : Nat × DecisionSite}
    (h : key ∈ made.map (·.1) ∨ (record.sites.lookup key).isSome) :
    ((made.foldl file record).sites.lookup key).isSome := by
  induction made generalizing record with
  | nil => exact h.elim nofun id
  | cons m made ih =>
      refine ih (file record m) ?_
      rw [show (file record m).sites = setSite m.1 record.decisions.length record.sites from rfl,
        lookup_setSite]
      rcases h with h | h
      · rcases List.mem_cons.mp h with rfl | h
        · exact .inr (by rw [if_pos rfl]; rfl)
        · exact .inl h
      · refine .inr ?_
        split
        · rfl
        · exact h

/-- There is a decision about every construct of a rule. -/
theorem known_ofGrammar {grammar : Grammar} (hg : grammar.Numbered) {vocabulary : Vocabulary}
    (hv : vocabulary.Fits) {kind : NetworkKind} {rule : Rule} (hrule : rule ∈ rulesOf grammar kind)
    {definition : RuleDef} (hdefinition : grammar.definition? rule = some definition) :
    ∀ key ∈ definition.keys,
      ((ofGrammar grammar vocabulary kind).decisionAt? key.1 key.2).isSome := by
  intro key hkey
  obtain ⟨made, hhoused, hrecord⟩ := housed_ofGrammar hg hv kind
  have hsites := congrArg (fun record => Record.sites record |>.lookup key) hrecord
  refine (congrArg Option.isSome hsites).trans (isSome_lookup_foldl_file _ (.inl ?_))
  rw [hhoused.keys]
  exact List.mem_flatMap.mpr ⟨_, List.mem_filterMap.mpr ⟨_, hrule, hdefinition⟩, hkey⟩

/-- The decisions of a parser are those of its rules, and each is found by its key. -/
theorem decided_ofGrammar {grammar : Grammar} (hg : grammar.Numbered) (hapart : grammar.ParserApart)
    {vocabulary : Vocabulary} (hv : vocabulary.Fits) :
    ∃ made, HousedAll grammar vocabulary .parser (ofGrammar grammar vocabulary .parser)
        grammar.parserRules made ∧
      (ofGrammar grammar vocabulary .parser).decisions.toList = made.map (·.2) ∧
      ∀ (i : Nat) (m : Made), made[i]? = some m →
        (ofGrammar grammar vocabulary .parser).decisionAt? m.1.1 m.1.2 = some i := by
  obtain ⟨made, hhoused, hrecord⟩ := housed_ofGrammar hg hv .parser
  have hnodup : (made.map (·.1)).Nodup := by
    rw [hhoused.keys]
    exact hapart
  refine ⟨made, hhoused, ?_, fun i m hm => ?_⟩
  · have hdecisions := congrArg Record.decisions hrecord
    rw [decisions_foldl_file] at hdecisions
    exact hdecisions
  · have hsites := congrArg (fun record => Record.sites record |>.lookup m.1) hrecord
    dsimp only at hsites
    rw [lookup_foldl_file hnodup _ hm] at hsites
    exact hsites.trans (congrArg some (Nat.zero_add i))

end Network

end GrammarCompiler
