import GrammarCompiler.Proofs.Compile
import GrammarCompiler.Proofs.Model.Run
import GrammarCompiler.Proofs.Model.TestSet
import GrammarCompiler.Proofs.Network.Decisions
import GrammarCompiler.Proofs.Network.Lookahead

/-!
# Choices and decisions

The model of a parser and its network are made from the same definitions, but apart from each
other. A construct that has a decision in the network has a choice in the model
(`Source.Covers`), and the alternatives of the choice are numbered as the ways on from the state
of the decision (`Source.Dispatches`).
-/

namespace GrammarCompiler

open Network (Handle Made Placed PlacedRow PlacedAlts Joined Chosen Under toParts toRound toOptional
  among)

namespace ParserModel

namespace Source

section Dispatches

variable (source : Source) (scope : Network.Scope)

/-- Steps are the code of what a state of the network leads into: an alternative, an element under
a suffix, or the body of a loop. -/
inductive Enters : List Operation → Nat → Prop
  | alternative {alt : Alt} {row : List Handle} {part : Handle} {made : List Made} :
    PlacedRow source.network scope alt.elements row made → Joined source.network row part →
      Enters (source.elements alt.elements) part.left
  | element {e : Element} {part : Handle} {made : List Made} :
    Placed source.network scope e part made → Enters (source.element none e) part.left
  | alternatives {token : Nat} {site : DecisionSite} {alts : List Alt} {parts : List Handle}
    {made : List Made} {id : Nat} : PlacedAlts source.network scope alts parts made →
    source.network.ways? id = some (false, toParts parts) →
      Enters (source.block token site (source.alts 1 alts)) id
  | round {e : Element} {part : Handle} {made : List Made} {id : Nat} :
    Placed source.network scope e part made →
    source.network.ways? id = some (false, toParts [part]) → Enters (source.element none e) id

/-- A state is behind the construct under a suffix whose decision is that of another state. -/
def Behind (id finish : Nat) : Prop :=
  ∃ suffix greedy inner extent whole made,
    Placed source.network scope (.suffixed suffix greedy inner extent) whole made ∧
      made.getLast?.map (·.2) = some id ∧ finish = whole.right

/-- The ways on from a state are those of a choice. Every alternative is entered by the transition
of its number. If something has a suffix, one transition more leads behind it. -/
structure Dispatches (choice : Choice) (id : Nat) (state : State) : Prop where
  count : state.transitions.length = choice.alts.length + if choice.kind.isBlock then 0 else 1
  alone : choice.kind.isStar = true ∨ choice.kind.isPlus = true → choice.alts.length = 1
  nodup : (choice.alts.map (·.num)).Nodup
  enters : ∀ code ∈ choice.alts, ∃ place target, code.num = place + 1 ∧
    state.transitions[place]? = some (.epsilon target) ∧ source.Enters scope code.ops target
  leaves : choice.kind.isBlock = false → ∃ place finish,
    (∀ code ∈ choice.alts, code.num ≠ place + 1) ∧
      state.transitions[place]? = some (.epsilon finish) ∧ source.Behind scope id finish

structure Answers (choice : Choice) (made : Made) : Prop where
  decision : source.network.decisionAt? made.1.1 made.1.2 = some choice.decision
  chosen : ∃ suffix alts, choice = source.choice suffix choice.decision alts
  dispatches : ∃ state, source.network.state? made.2 = some state ∧
    source.Dispatches scope choice made.2 state

/-- There is one choice for each of some decisions, and no other choice. -/
def Covers (choices : List Choice) (made : List Made) : Prop :=
  ∃ answers, choices.Perm answers ∧ List.Forall₂ (source.Answers scope) answers made

/-- Decisions that are found by their keys. -/
def Found (made : List Made) : Prop :=
  ∀ m ∈ made, ∃ d, source.network.decisionAt? m.1.1 m.1.2 = some d

end Dispatches

section Covers

variable {source : Source} {scope : Network.Scope} {choices choices' : List Choice}
  {made made' : List Made}

theorem Covers.nil : source.Covers scope [] [] :=
  ⟨[], .refl _, .nil⟩

theorem Covers.append (h : source.Covers scope choices made)
    (h' : source.Covers scope choices' made') :
    source.Covers scope (choices ++ choices') (made ++ made') := by
  obtain ⟨answers, hperm, hall⟩ := h
  obtain ⟨answers', hperm', hall'⟩ := h'
  exact ⟨answers ++ answers', hperm.append hperm', List.rel_append hall hall'⟩

/-- A choice comes before those inside it, but its decision after theirs. -/
theorem Covers.around (h : source.Covers scope choices made) {choice : Choice} {m : Made}
    (hm : source.Answers scope choice m) :
    source.Covers scope (choice :: choices) (made ++ [m]) := by
  obtain ⟨answers, hperm, hall⟩ := h
  exact ⟨answers ++ [choice], (hperm.cons choice).trans (List.perm_append_singleton _ _).symm,
    List.rel_append hall (.cons hm .nil)⟩

theorem Found.left (h : source.Found (made ++ made')) : source.Found made :=
  fun m hm => h m (List.mem_append_left _ hm)

theorem Found.right (h : source.Found (made ++ made')) : source.Found made' :=
  fun m hm => h m (List.mem_append_right _ hm)

theorem listChoices_append (ops ops' : List Operation) :
    Operation.listChoices (ops ++ ops') = Operation.listChoices ops ++ Operation.listChoices ops' := by
  induction ops with
  | nil => rfl
  | cons op ops ih =>
      rw [List.cons_append, Operation.listChoices, Operation.listChoices, ih, List.append_assoc]

/-- The numbers of alternatives do not matter for the choices in them. -/
theorem listChoices_renumber (f : Nat → Nat) (codes : List AltCode) :
    AltCode.listChoices (codes.map fun code => { code with num := f code.num }) =
      AltCode.listChoices codes := by
  induction codes with
  | nil => rfl
  | cons code codes ih =>
      obtain ⟨num, ops⟩ := code
      rw [List.map_cons, AltCode.listChoices, AltCode.listChoices, ih]
      rfl

theorem listChoices_choice (choice : Choice) :
    Operation.listChoices [.choice choice] = choice :: AltCode.listChoices choice.alts := by
  obtain ⟨kind, decision, alts, look⟩ := choice
  exact List.append_nil _

theorem listChoices_alone (code : AltCode) :
    AltCode.listChoices [code] = Operation.listChoices code.ops := by
  obtain ⟨num, ops⟩ := code
  exact List.append_nil _

end Covers

/-! ## Alternatives -/

section Alternatives

variable {source : Source} {scope : Network.Scope}

theorem length_alts (num : Nat) (alts : List Alt) : (source.alts num alts).length = alts.length := by
  induction alts generalizing num with
  | nil => rfl
  | cons alt alts ih => rw [Source.alts, List.length_cons, ih, List.length_cons]

theorem nums_alts (num : Nat) (alts : List Alt) :
    (source.alts num alts).map (·.num) = List.range' num alts.length := by
  induction alts generalizing num with
  | nil => rfl
  | cons alt alts ih =>
      obtain ⟨elements, options, label, extent, info⟩ := alt
      rw [Source.alts, List.map_cons, ih, List.length_cons, List.range'_succ]
      rfl

/-- Alternatives are entered where their parts begin. -/
theorem enters_alts {alts : List Alt} {parts : List Handle} {made : List Made}
    (h : PlacedAlts source.network scope alts parts made) (num : Nat) :
    List.Forall₂ (fun (code : AltCode) part => source.Enters scope code.ops part.left)
      (source.alts num alts) parts := by
  induction alts generalizing parts made num with
  | nil => cases h; exact .nil
  | cons alt alts ih =>
      obtain ⟨elements, options, label, extent, info⟩ := alt
      cases h with
      | cons hrow hjoined hrest => exact .cons (.alternative hrow hjoined) (ih hrest (num + 1))

theorem isBlock_choice (suffix : Option Suffix) (d : Nat) (codes : List AltCode) :
    (source.choice suffix d codes).kind.isBlock = suffix.isNone :=
  ChoiceKind.isBlock_choose

theorem isStar_choice (suffix : Option Suffix) (d : Nat) (codes : List AltCode) :
    (source.choice suffix d codes).kind.isStar = true ↔ suffix = some .closure :=
  ChoiceKind.isStar_choose

theorem isPlus_choice (suffix : Option Suffix) (d : Nat) (codes : List AltCode) :
    (source.choice suffix d codes).kind.isPlus = true ↔ suffix = some .positiveClosure :=
  ChoiceKind.isPlus_choose

/-- The ways on from the state of a decision fit the alternatives of its choice, wherever the way
out comes. -/
theorem dispatches_of_ways {suffix : Option Suffix} {d id : Nat} {codes : List AltCode}
    {state : State} {before targets after : List Nat} {exit : Option Nat}
    (hways : state.transitions = (before ++ (targets ++ after)).map .epsilon)
    (hnums : codes.map (·.num) = List.range' (before.length + 1) codes.length)
    (hcodes : List.Forall₂ (fun (code : AltCode) target => source.Enters scope code.ops target)
      codes targets)
    (halone : suffix = some .closure ∨ suffix = some .positiveClosure → codes.length = 1)
    (hexit : before ++ after = exit.toList) (hsuffix : exit.isSome = suffix.isSome)
    (hbehind : ∀ finish ∈ exit, source.Behind scope id finish) :
    source.Dispatches scope (source.choice suffix d codes) id state := by
  have hlength := hcodes.length_eq
  have hblock : (source.choice suffix d codes).kind.isBlock = exit.isNone := by
    rw [← Option.not_isSome, hsuffix, Option.not_isSome]
    exact source.isBlock_choice suffix d codes
  have halts : (source.choice suffix d codes).alts = codes := rfl
  have hcount := congrArg List.length hexit
  rw [List.length_append] at hcount
  have hnum : ∀ (i : Nat) (code : AltCode), codes[i]? = some code →
      code.num = before.length + i + 1 := by
    intro i code hcode
    have hi : (codes.map (·.num))[i]? = _ := congrArg (·[i]?) hnums
    rw [List.getElem?_map, hcode, List.getElem?_range' (List.getElem?_eq_some_iff.mp hcode).1,
      Option.map_some, Option.some.injEq] at hi
    omega
  refine ⟨?_, fun hloop => ?_, ?_, fun code hcode => ?_, fun hopen => ?_⟩
  · rw [hblock, hways, halts, List.length_map, List.length_append, List.length_append, hlength]
    cases exit with
    | none =>
        have hcount : before.length + after.length = 0 := hcount
        show _ = targets.length + 0
        omega
    | some finish =>
        have hcount : before.length + after.length = 1 := hcount
        show _ = targets.length + 1
        omega
  · exact halone (hloop.imp (source.isStar_choice ..).mp (source.isPlus_choice ..).mp)
  · rw [halts, hnums]
    exact List.nodup_range'
  · obtain ⟨i, hi⟩ := List.mem_iff_getElem?.mp (halts ▸ hcode)
    obtain ⟨hlt, rfl⟩ := List.getElem?_eq_some_iff.mp hi
    refine ⟨before.length + i, targets[i], hnum i _ hi, ?_, hcodes.get hlt (hlength ▸ hlt)⟩
    rw [hways, List.getElem?_map, List.getElem?_append_right (Nat.le_add_right ..),
      Nat.add_sub_cancel_left, List.getElem?_append_left (hlength ▸ hlt),
      List.getElem?_eq_getElem (hlength ▸ hlt)]
    rfl
  · rw [hblock] at hopen
    obtain ⟨finish, rfl⟩ : ∃ finish, exit = some finish := by
      cases exit with
      | none => cases hopen
      | some finish => exact ⟨finish, rfl⟩
    have hplace : ∀ place, (place < before.length ∨ before.length + codes.length ≤ place) →
        ∀ code ∈ codes, code.num ≠ place + 1 := by
      intro place hplace code hcode heq
      obtain ⟨i, hi⟩ := List.mem_iff_getElem?.mp hcode
      have hlt := (List.getElem?_eq_some_iff.mp hi).1
      rw [hnum i code hi] at heq
      omega
    -- the way out comes before all alternatives or behind them
    rcases List.append_eq_singleton_iff.mp hexit with ⟨rfl, rfl⟩ | ⟨rfl, rfl⟩
    · refine ⟨codes.length, finish, hplace _ (Or.inr (by simp)), ?_, hbehind finish rfl⟩
      rw [hways, hlength]
      simp
    · refine ⟨0, finish, hplace 0 (Or.inl (by simp)), ?_, hbehind finish rfl⟩
      rw [hways]
      rfl

/-- Where the decision between the alternatives of a block is found, the block is a choice. -/
theorem choiceAt_eq {token d : Nat} {site : DecisionSite}
    (h : source.network.decisionAt? token site = some d) (suffix : Option Suffix)
    (codes : List AltCode) :
    source.choiceAt token site suffix codes = [.choice (source.choice suffix d codes)] := by
  unfold choiceAt
  rw [h]

variable {codes : List AltCode} {parts : List Handle} {made : List Made}

/-- The choices in a block are those in its alternatives, and that between them. -/
theorem covers_block {token : Nat} {site : DecisionSite} {made' : List Made} (id : Nat)
    (hcodes : source.Covers scope (AltCode.listChoices codes) made)
    (hnums : codes.map (·.num) = List.range' 1 codes.length)
    (henters : List.Forall₂ (fun (code : AltCode) part => source.Enters scope code.ops part.left)
      codes parts)
    (hmade : made' = if parts.length = 1 then [] else [((token, site), id)])
    (hways : parts.length ≠ 1 → source.network.ways? id = some (false, toParts parts))
    (hfound : source.Found made') :
    source.Covers scope (Operation.listChoices (source.block token site codes)) (made ++ made') := by
  have hlength := henters.length_eq
  by_cases hone : parts.length = 1
  · obtain ⟨code, rfl⟩ := List.length_eq_one_iff.mp (hlength.trans hone)
    rw [hmade, if_pos hone, List.append_nil]
    rw [listChoices_alone] at hcodes
    exact hcodes
  · rw [hmade, if_neg hone]
    rw [hmade, if_neg hone] at hfound
    obtain ⟨d, hd⟩ := hfound _ (List.mem_singleton.mpr rfl)
    obtain ⟨state, hstate, -, hstateways⟩ := (Network.ways?_eq_some _).mp (hways hone)
    have hblock : source.block token site codes = source.choiceAt token site none codes := by
      unfold block
      split
      · exact absurd (hlength.symm.trans rfl) hone
      · rfl
    rw [hblock, choiceAt_eq hd, listChoices_choice]
    refine hcodes.around ⟨hd, ⟨none, codes, rfl⟩, state, hstate, ?_⟩
    refine @dispatches_of_ways source scope none d id codes state [] (parts.map (·.left)) [] none
      ?_ hnums (List.forall₂_map_right_iff.mpr henters) (by rintro (h | h) <;> cases h) rfl rfl nofun
    rw [(Prod.mk.inj hstateways).2, List.nil_append, List.append_nil, List.map_map]
    rfl

theorem covers_chosen {token : Nat} {site : DecisionSite} {whole : Handle} {made' : List Made}
    (hcodes : source.Covers scope (AltCode.listChoices codes) made)
    (hnums : codes.map (·.num) = List.range' 1 codes.length)
    (henters : List.Forall₂ (fun (code : AltCode) part => source.Enters scope code.ops part.left)
      codes parts)
    (hchosen : Chosen source.network token site parts whole made') (hfound : source.Found made') :
    source.Covers scope (Operation.listChoices (source.block token site codes)) (made ++ made') := by
  cases hchosen with
  | alone =>
      exact covers_block whole.left hcodes hnums henters rfl (fun h => absurd rfl h) hfound
  | among hone hleft =>
      exact covers_block whole.left hcodes hnums henters (if_neg hone).symm (fun _ => hleft) hfound

/-- The decision between several alternatives, of which there are some. -/
theorem among_eq (token : Nat) (site : DecisionSite) {count : Nat} (hcount : count ≠ 0) (id : Nat) :
    among token site count id = if count = 1 then [] else [((token, site), id)] := by
  unfold among
  by_cases hone : count = 1
  · rw [if_neg (by omega), if_pos hone]
  · rw [if_pos (by omega), if_neg hone]

/-- A choice between another round of a loop and its end. -/
theorem dispatches_round (suffix : Suffix) {d id again finish : Nat} {greedy : Bool}
    {state : State} {ops : List Operation}
    (hways : source.network.ways? id = some (!greedy, toRound again finish greedy))
    (hstate : source.network.state? id = some state) (henters : source.Enters scope ops again)
    (hbehind : source.Behind scope id finish) :
    source.Dispatches scope
      (source.choice (some suffix) d [⟨1 + if greedy then 0 else 1, ops⟩]) id state := by
  obtain ⟨state', hstate', -, heq⟩ := (Network.ways?_eq_some _).mp hways
  obtain rfl := Option.some.inj (hstate.symm.trans hstate')
  have hts := (Prod.mk.inj heq).2
  cases greedy with
  | true =>
      exact @dispatches_of_ways source scope (some suffix) d id [⟨1, ops⟩] state [] [again] [finish]
        (some finish) hts rfl (.cons henters .nil) (fun _ => rfl) rfl rfl
        fun _ h => Option.some.inj h ▸ hbehind
  | false =>
      exact @dispatches_of_ways source scope (some suffix) d id [⟨2, ops⟩] state [finish] [again] []
        (some finish) hts rfl (.cons henters .nil) (fun _ => rfl) rfl rfl
        fun _ h => Option.some.inj h ▸ hbehind

/-- A choice between alternatives and the way around them. -/
theorem dispatches_optional {d id finish : Nat} {greedy : Bool} {state : State}
    (hways : source.network.ways? id = some (!greedy, toOptional parts finish greedy))
    (hstate : source.network.state? id = some state)
    (hnums : codes.map (·.num) = List.range' 1 codes.length)
    (henters : List.Forall₂ (fun (code : AltCode) part => source.Enters scope code.ops part.left)
      codes parts)
    (hbehind : source.Behind scope id finish) :
    source.Dispatches scope (source.choice (some .optional) d
      (codes.map fun code => { code with num := code.num + if greedy then 0 else 1 })) id state := by
  obtain ⟨state', hstate', -, heq⟩ := (Network.ways?_eq_some _).mp hways
  obtain rfl := Option.some.inj (hstate.symm.trans hstate')
  have hts : state.transitions = toOptional parts finish greedy := (Prod.mk.inj heq).2
  have htargets : toParts parts = (parts.map (·.left)).map .epsilon := by
    rw [List.map_map]
    rfl
  have hall : ∀ f : Nat → Nat, List.Forall₂
      (fun (code : AltCode) target => source.Enters scope code.ops target)
      (codes.map fun code => { code with num := f code.num }) (parts.map (·.left)) :=
    fun f => List.forall₂_map_left_iff.mpr (List.forall₂_map_right_iff.mpr henters)
  have hshift : ∀ k, (codes.map fun code => { code with num := code.num + k }).map (·.num) =
      List.range' (k + 1) (codes.map fun code => { code with num := code.num + k }).length := by
    intro k
    have hsum : (codes.map (·.num)).map (k + ·) = List.range' (k + 1) codes.length := by
      rw [hnums]
      exact List.map_add_range' ..
    rw [List.length_map, ← hsum, List.map_map, List.map_map]
    exact List.map_congr_left fun code _ => Nat.add_comm ..
  cases greedy with
  | true =>
      refine @dispatches_of_ways source scope (some .optional) d id _ state [] (parts.map (·.left))
        [finish] (some finish) ?_ (hshift 0) (hall (· + 0)) (by rintro (h | h) <;> cases h) rfl rfl
        fun _ h => Option.some.inj h ▸ hbehind
      rw [hts, List.nil_append, List.map_append, ← htargets]
      rfl
  | false =>
      refine @dispatches_of_ways source scope (some .optional) d id _ state [finish]
        (parts.map (·.left)) [] (some finish) ?_ (hshift 1) (hall (· + 1))
        (by rintro (h | h) <;> cases h) rfl rfl fun _ h => Option.some.inj h ▸ hbehind
      rw [hts, List.append_nil, List.map_append, ← htargets]
      rfl

/-- The choices in what has a suffix: those in the alternatives, that between them in the body of a
loop, and that about the suffix. -/
theorem covers_suffixed {suffix : Suffix} {greedy : Bool} {token : Nat} {inner : Element}
    {extent : Extent} {whole : Handle} {made' : List Made}
    (hcodes : source.Covers scope (AltCode.listChoices codes) made)
    (hnums : codes.map (·.num) = List.range' 1 codes.length) (hne : codes ≠ [])
    (henters : List.Forall₂ (fun (code : AltCode) part => source.Enters scope code.ops part.left)
      codes parts)
    (hbody : ∀ site id, source.network.ways? id = some (false, toParts parts) →
      source.Enters scope (source.block token site codes) id)
    (hunder : Under source.network token extent.start greedy suffix parts whole made')
    (hplaced : Placed source.network scope (.suffixed suffix greedy inner extent) whole
      (made ++ made'))
    (hfound : source.Found made') :
    source.Covers scope
      (Operation.listChoices (source.suffixed suffix greedy token extent.start codes))
      (made ++ made') := by
  have hlength := henters.length_eq
  have hparts : parts.length ≠ 0 := by
    rw [← hlength]
    exact fun h => hne (List.length_eq_zero_iff.mp h)
  cases hunder with
  | optional hleft hrights =>
      obtain ⟨d, hd⟩ := hfound _ (List.mem_singleton.mpr rfl)
      obtain ⟨state, hstate, -, -⟩ := (Network.ways?_eq_some _).mp hleft
      have hbehind : source.Behind scope whole.left whole.right :=
        ⟨_, _, _, _, _, _, hplaced, by rw [List.getLast?_concat]; rfl, rfl⟩
      have hinside := listChoices_renumber (· + if greedy then 0 else 1) codes
      rw [show source.suffixed .optional greedy token extent.start codes = _ from choiceAt_eq hd ..,
        listChoices_choice]
      refine Covers.around ?_ ⟨hd, ⟨some .optional, _, rfl⟩, state, hstate, ?_⟩
      · exact hinside.symm ▸ hcodes
      · exact dispatches_optional hleft hstate hnums henters hbehind
  | @star _ _ start inner back hstart hrights hinner hback hentry =>
      rw [among_eq _ _ hparts, ← List.append_assoc] at hplaced ⊢
      rw [among_eq _ _ hparts] at hfound
      obtain ⟨d, hd⟩ := hfound.right _ (List.mem_singleton.mpr rfl)
      obtain ⟨state, hstate, -, -⟩ := (Network.ways?_eq_some _).mp hentry
      have hbehind : source.Behind scope whole.left whole.right :=
        ⟨_, _, _, _, _, _, hplaced, by rw [List.getLast?_concat]; rfl, rfl⟩
      have hinside := covers_block _ hcodes hnums henters rfl (fun _ => hstart) hfound.left
      rw [show source.suffixed .closure greedy token extent.start codes = _ from choiceAt_eq hd ..,
        listChoices_choice]
      refine Covers.around ?_ ⟨hd, ⟨some .closure, _, rfl⟩, state, hstate, ?_⟩
      · exact (listChoices_alone _).symm ▸ hinside
      · exact dispatches_round .closure hentry hstate (hbody _ _ hstart) hbehind
  | @plus _ _ inner back hstart hrights hinner hback =>
      rw [among_eq _ _ hparts, ← List.append_assoc] at hplaced ⊢
      rw [among_eq _ _ hparts] at hfound
      obtain ⟨d, hd⟩ := hfound.right _ (List.mem_singleton.mpr rfl)
      obtain ⟨state, hstate, -, -⟩ := (Network.ways?_eq_some _).mp hback
      have hbehind : source.Behind scope back whole.right :=
        ⟨_, _, _, _, _, _, hplaced, by rw [List.getLast?_concat]; rfl, rfl⟩
      have hinside := covers_block _ hcodes hnums henters rfl (fun _ => hstart) hfound.left
      rw [show source.suffixed .positiveClosure greedy token extent.start codes = _ from
        choiceAt_eq hd .., listChoices_choice]
      refine Covers.around ?_ ⟨hd, ⟨some .positiveClosure, _, rfl⟩, state, hstate, ?_⟩
      · exact (listChoices_alone _).symm ▸ hinside
      · exact dispatches_round .positiveClosure hback hstate (hbody _ _ hstart) hbehind

end Alternatives

/-! ## Elements -/

/-- What is in an element has one choice for each decision. A suffix asks for the alternatives of a
block apart from the choice between them. -/
structure CoversBoth (source : Source) (scope : Network.Scope) (e : Element) : Prop where
  part : ∀ {label : Option String} {part : Handle} {made : List Made},
    Placed source.network scope e part made → source.Found made →
      source.Covers scope (Operation.listChoices (source.element label e)) made
  alts : ∀ {alts options extent}, e = .block alts options extent →
    ∀ {parts : List Handle} {made : List Made}, PlacedAlts source.network scope alts parts made →
      source.Found made → source.Covers scope (AltCode.listChoices (source.alts 1 alts)) made

section Elements

variable {source : Source} {scope : Network.Scope}

theorem CoversBoth.leaf {e : Element}
    (hchoices : ∀ label, Operation.listChoices (source.element label e) = [])
    (hmade : ∀ {part made}, Placed source.network scope e part made → made = [])
    (hblock : ∀ alts options extent, e ≠ .block alts options extent) :
    CoversBoth source scope e := by
  refine ⟨fun {label _ _} hplaced _ => ?_, fun he => absurd he (hblock _ _ _)⟩
  rw [hchoices label, hmade hplaced]
  exact .nil

theorem CoversBoth.suffixed {inner : Element} (h : CoversBoth source scope inner)
    (hformed : inner.isFormed = true) (suffix : Suffix) (greedy : Bool) (extent : Extent) :
    CoversBoth source scope (.suffixed suffix greedy inner extent) := by
  refine ⟨fun {label part made} hplaced hfound => ?_, nofun⟩
  have hplaced' := hplaced
  cases hplaced with
  | leaf hleaf => exact absurd hleaf (by rintro ⟨⟩ <;> contradiction)
  | @blockUnder _ _ alts options inner _ parts whole made made' halts hunder =>
      rw [Source.element]
      refine covers_suffixed (h.alts rfl halts hfound.left) ?_ ?_ (enters_alts halts 1)
        (fun _ _ => .alternatives halts) hunder hplaced' hfound.right
      · rw [nums_alts, length_alts]
      · rintro hnil
        rw [Element.isFormed, List.length_eq_zero_iff.mp
          ((length_alts 1 alts).symm.trans (congrArg List.length hnil))] at hformed
        cases hformed
  | @under _ _ _ _ part whole made made' hblock hinner hunder =>
      have hcodes : source.Covers scope (Operation.listChoices (source.element none inner)) made :=
        h.part hinner hfound.left
      rw [Source.element]
      · rw [← listChoices_alone ⟨1, source.element none inner⟩] at hcodes
        exact covers_suffixed hcodes rfl (List.cons_ne_nil _ _)
          (.cons (.element hinner) .nil) (fun _ _ hways => .round hinner hways) hunder hplaced'
          hfound.right
      · exact hblock

mutual
theorem covers_element : ∀ e : Element, e.isFormed = true → CoversBoth source scope e
  | .block alts options extent, hformed => by
      rw [Element.isFormed, Bool.and_eq_true] at hformed
      have halts := covers_alts alts hformed.2
      refine ⟨fun {label part made} hplaced hfound => ?_, fun he => ?_⟩
      · cases hplaced with
        | leaf hleaf => exact absurd hleaf (by rintro ⟨⟩ <;> contradiction)
        | @block _ _ _ parts whole made made' hplaced hchosen =>
            rw [Source.element]
            exact covers_chosen (halts 1 hplaced hfound.left) (by rw [nums_alts, length_alts])
              (enters_alts hplaced 1) hchosen hfound.right
      · obtain ⟨rfl, -, -⟩ := Element.block.inj he
        exact fun hplaced hfound => halts 1 hplaced hfound
  | .suffixed suffix greedy inner extent, hformed =>
      (covers_element inner hformed).suffixed hformed suffix greedy extent
  | .labeled _ name _ inner _, hformed => by
      refine ⟨fun {label part made} hplaced hfound => ?_, nofun⟩
      cases hplaced with
      | leaf hleaf => exact absurd hleaf (by rintro ⟨⟩ <;> contradiction)
      | labeled hinner =>
          rw [Source.element]
          exact (covers_element inner hformed).part hinner hfound
  | .predicate code, _ => by
      refine .leaf (fun label => ?_) (fun hplaced => ?_) nofun
      · rw [Source.element]
        split <;> rfl
      · cases hplaced
        rfl
  | .ruleRef _, _ | .tokenRef _ _ _, _ | .quotation _, _ | .range _ _ _, _ | .wildcard _ _, _
  | .not _ _, _ | .set _ _, _ | .action _, _ | .command _ _ _, _ | .epsilon _, _ => by
      refine .leaf (fun label => ?_) (fun hplaced => ?_) nofun
      · rw [Source.element]
        rfl
      · cases hplaced <;> rfl

theorem covers_row : ∀ es : List Element, Element.listFormed es = true →
    ∀ {parts : List Handle} {made : List Made}, PlacedRow source.network scope es parts made →
      source.Found made →
        source.Covers scope (Operation.listChoices (source.elements es)) made
  | [], _, _, _, hplaced, _ => by
      cases hplaced
      exact .nil
  | e :: es, hformed, _, _, hplaced, hfound => by
      rw [Element.listFormed, Bool.and_eq_true] at hformed
      cases hplaced with
      | cons hpart hrest =>
          rw [Source.elements, listChoices_append]
          exact ((covers_element e hformed.1).part hpart hfound.left).append
            (covers_row es hformed.2 hrest hfound.right)

theorem covers_alts : ∀ alts : List Alt, Alt.listFormed alts = true →
    ∀ (num : Nat) {parts : List Handle} {made : List Made},
      PlacedAlts source.network scope alts parts made → source.Found made →
        source.Covers scope (AltCode.listChoices (source.alts num alts)) made
  | [], _, _, _, _, hplaced, _ => by
      cases hplaced
      exact .nil
  | ⟨elements, options, label, extent, info⟩ :: alts, hformed, num, _, _, hplaced, hfound => by
      rw [Alt.listFormed, Bool.and_eq_true] at hformed
      cases hplaced with
      | cons hrow _ hrest =>
          rw [Source.alts, AltCode.listChoices]
          exact (covers_row elements hformed.1 hrow hfound.left).append
            (covers_alts alts hformed.2 (num + 1) hrest hfound.right)
end

end Elements

/-! ## Rules -/

section Rules

variable {source : Source}

theorem covers_rule {rule : Rule} {definition : RuleDef} {made : List Made}
    (h : Network.Housed source.network
      (Network.scopeOf source.grammar source.vocabulary .parser rule definition) definition made)
    (hformed : definition.isFormed = true) (hfound : source.Found made) :
    source.Covers (Network.scopeOf source.grammar source.vocabulary .parser rule definition)
      (Operation.listChoices (source.rule rule definition).body) made := by
  rw [RuleDef.isFormed, Bool.and_eq_true] at hformed
  cases h with
  | mk _ _ _ halts hchosen _ =>
      exact covers_chosen (covers_alts definition.alts hformed.2 1 halts hfound.left)
        (by rw [nums_alts, length_alts]) (enters_alts halts 1) hchosen hfound.right

variable (source) in
/-- A choice is the one that a decision about some rule asks for. -/
def AnswersSome (choice : Choice) (made : Made) : Prop :=
  ∃ rule ∈ source.grammar.parserRules, ∃ definition,
    source.grammar.definition? rule = some definition ∧
      source.Answers (Network.scopeOf source.grammar source.vocabulary .parser rule definition)
        choice made

/-- The choices in the functions of rules are those that the decisions about them ask for. -/
theorem answers_housedAll {rules : List Rule} {made : List Made}
    (h : Network.HousedAll source.grammar source.vocabulary .parser source.network rules made)
    (hrules : ∀ rule ∈ rules, rule ∈ source.grammar.parserRules)
    (hformed : ∀ definition ∈ source.grammar.source.rules, definition.isFormed = true)
    (hfound : source.Found made) :
    ∃ answers, List.Perm ((rules.filterMap fun rule =>
        (source.grammar.definition? rule).map (source.rule rule)).flatMap fun function =>
          Operation.listChoices function.body) answers ∧
      List.Forall₂ source.AnswersSome answers made := by
  induction h with
  | nil => exact ⟨[], .refl _, .nil⟩
  | undefined hnone _ ih =>
      obtain ⟨answers, hperm, hall⟩ := ih (fun r hr => hrules r (List.mem_cons_of_mem _ hr)) hfound
      refine ⟨answers, ?_, hall⟩
      rw [List.filterMap_cons_none (by rw [hnone]; rfl)]
      exact hperm
  | @cons rule rules definition made made' hsome hhoused _ ih =>
      obtain ⟨answers, hperm, hall⟩ := covers_rule hhoused
        (hformed definition (List.mem_of_getElem? hsome)) hfound.left
      obtain ⟨answers', hperm', hall'⟩ :=
        ih (fun r hr => hrules r (List.mem_cons_of_mem _ hr)) hfound.right
      refine ⟨answers ++ answers', ?_, List.rel_append (hall.imp fun choice m hm => ?_) hall'⟩
      · rw [List.filterMap_cons_some (by rw [hsome]; rfl), List.flatMap_cons]
        exact hperm.append hperm'
      · exact ⟨rule, hrules rule (List.mem_cons_self ..), definition, hsome, hm⟩

variable (source) in
/-- How far one token settles a choice. If the kind of the choice says that it does, there is a
test for each way on, which holds what the lookahead of the decision holds. -/
structure Tells (choice : Choice) (state : State) : Prop where
  tests : choice.kind.isLL1 = true → ∃ look, source.look[choice.decision]? = some look ∧
    choice.look.length = state.transitions.length ∧
      List.Forall₂ (fun (test : TestSet) entry =>
        ∃ set, entry = some set ∧ ∀ n, n ∈ test.tokens ↔ n ∈ set) choice.look look
  reluctant : state.nonGreedy = true → choice.kind.isLL1 = false
  forced : source.options.forcePrediction = true → choice.kind.isLL1 = false

end Rules

end Source

end ParserModel

end GrammarCompiler
