import GrammarCompiler.Proofs.Compile
import GrammarCompiler.Proofs.Model.Choices
import GrammarCompiler.Proofs.Model.Dispatch
import GrammarCompiler.Proofs.Model.Language
import GrammarCompiler.Proofs.Model.Settled

/-!
# The functions of a model in its network

The model and the network of a parser are made from the same rules. So the function of a rule is
laid out where the rule has its place in the network (`laid_housed`), and with all rules in their
places the whole model is (`wired_model`). The proofs follow the elements, as the model does; under
a suffix the alternatives of a block are laid out apart from the choice between them.
-/

namespace GrammarCompiler

open Network (Handle Made Placed PlacedRow PlacedAlts Joined Chosen Under toParts toRound
  toOptional among)

namespace Network

theorem Has.of_ways? {network : Network} {id : Nat} {reluctant : Bool} {ts : List Transition}
    (h : network.ways? id = some (reluctant, ts)) {t : Transition} (ht : t ∈ ts) :
    network.Has id t := by
  obtain ⟨state, hstate, hkind, heq⟩ := (ways?_eq_some _).mp h
  exact ⟨state, hstate, hkind, (Prod.mk.inj heq).2 ▸ ht⟩

theorem Has.ways? {network : Network} {id : Nat} {t : Transition} (h : network.Has id t) :
    ∃ reluctant ts, network.ways? id = some (reluctant, ts) ∧ t ∈ ts := by
  obtain ⟨state, hstate, hkind, ht⟩ := h
  exact ⟨_, _, (ways?_eq_some _).mpr ⟨state, hstate, hkind, rfl⟩, ht⟩

end Network

namespace ParserModel

namespace Source

/-- The decisions that were made are found by their keys. -/
def Kept (source : Source) (made : List Made) : Prop :=
  ∀ m ∈ made, ∃ d, source.network.decisionAt? m.1.1 m.1.2 = some d ∧
    source.network.decisions[d]? = some m.2

/-- The steps of alternatives are laid out where their parts are. -/
abbrev LaidAlts (source : Source) : List AltCode → List Handle → Prop :=
  List.Forall₂ fun code part => source.Laid code.ops part.left part.right

section Constructs

variable {source : Source} {codes : List AltCode} {parts : List Handle} {made made' : List Made}

theorem Kept.left (h : source.Kept (made ++ made')) : source.Kept made :=
  fun m hm => h m (List.mem_append_left _ hm)

theorem Kept.right (h : source.Kept (made ++ made')) : source.Kept made' :=
  fun m hm => h m (List.mem_append_right _ hm)

theorem Passes.of_ways? {id target : Nat} {reluctant : Bool} {ts : List Transition}
    (h : source.network.ways? id = some (reluctant, ts)) (ht : .epsilon target ∈ ts) :
    source.Passes id target :=
  .of_has (.of_ways? h ht)

theorem Passes.only {id target : Nat} {reluctant : Bool}
    (h : source.network.ways? id = some (reluctant, [.epsilon target])) :
    source.Passes id target :=
  .of_ways? h (List.mem_singleton_self _)

/-- Where the parts begin. -/
def target (parts : List Handle) (k : Nat) : Nat :=
  (parts[k]?.map (·.left)).getD 0

theorem toParts_target {k : Nat} (hk : k < parts.length) :
    (toParts parts)[k]? = some (.epsilon (target parts k)) := by
  unfold toParts target
  rw [List.getElem?_map, List.getElem?_eq_getElem hk]
  rfl

theorem LaidAlts.at (h : source.LaidAlts codes parts) {k : Nat} {code : AltCode}
    (hcode : codes[k]? = some code) :
    ∃ part ∈ parts, target parts k = part.left ∧ source.Laid code.ops part.left part.right := by
  obtain ⟨hlt, rfl⟩ := List.getElem?_eq_some_iff.mp hcode
  have hlt' : k < parts.length := h.length_eq ▸ hlt
  refine ⟨parts[k], List.getElem_mem _, ?_, h.get hlt hlt'⟩
  unfold target
  rw [List.getElem?_eq_getElem hlt']
  rfl

/-- Alternatives that end in one place are laid out up to there. -/
theorem LaidAlts.up_to (h : source.LaidAlts codes parts) {finish : Nat}
    (hrights : ∀ p ∈ parts, source.network.ways? p.right = some (false, [.epsilon finish])) {k : Nat}
    {code : AltCode} (hcode : codes[k]? = some code) :
    source.Laid code.ops (target parts k) finish := by
  obtain ⟨part, hpart, heq, hlaid⟩ := h.at hcode
  rw [heq]
  exact hlaid.after (.only (hrights part hpart))

variable (hanalyzed : source.Analyzed)
include hanalyzed

/-- Parts side by side, with the decision between them at `start`. -/
theorem laid_among (hcodes : source.LaidAlts codes parts) {start finish : Nat}
    (hstart : source.network.ways? start = some (false, toParts parts))
    (hrights : ∀ p ∈ parts, source.network.ways? p.right = some (false, [.epsilon finish]))
    {token : Nat} {site : DecisionSite} (hkept : parts.length ≠ 1 →
      ∃ d, source.network.decisionAt? token site = some d ∧
        source.network.decisions[d]? = some start) :
    source.Laid (source.block token site codes) start finish := by
  have hlength := hcodes.length_eq
  have hpass : ∀ k < codes.length, source.Passes start (target parts k) := fun k hk =>
    .of_ways? hstart (List.mem_of_getElem? (toParts_target (hlength ▸ hk)))
  by_cases hone : parts.length = 1
  · obtain ⟨code, rfl⟩ := List.length_eq_one_iff.mp (hlength.trans hone)
    exact (hcodes.up_to hrights (show [code][0]? = some code from rfl)).before (hpass 0 Nat.one_pos)
  · obtain ⟨d, hd, hid⟩ := hkept hone
    have hblock : source.block token site codes = source.choiceAt token site none codes := by
      unfold block
      split
      · exact absurd hlength.symm hone
      · rfl
    have hkind : (source.choice none d codes).kind.isBlock = true := source.isBlock_choice none d codes
    rw [hblock, choiceAt_eq hd]
    refine LaidStep.alone (@LaidStep.block _ _ (target parts) _ _ ?_ ?_ hpass ?_ ?_ ?_)
    · exact ChoiceKind.isStar_of_isBlock hkind
    · exact ChoiceKind.isPlus_of_isBlock hkind
    · intro hno
      rw [hkind] at hno
      cases hno
    · rw [hkind]
      exact hanalyzed.settles hid hstart (fun _ k hk => toParts_target (hlength ▸ hk)) nofun
    · exact fun k code hcode => hcodes.up_to hrights hcode

theorem laid_chosen (hcodes : source.LaidAlts codes parts) {token : Nat} {site : DecisionSite}
    {whole : Handle} (hchosen : Chosen source.network token site parts whole made)
    (hkept : source.Kept made) :
    source.Laid (source.block token site codes) whole.left whole.right := by
  cases hchosen with
  | alone =>
      obtain ⟨code, rfl⟩ := List.length_eq_one_iff.mp hcodes.length_eq
      exact (List.forall₂_cons.mp hcodes).1
  | among _ hstart hrights =>
      exact laid_among hanalyzed hcodes hstart hrights fun _ => hkept _ (List.mem_singleton_self _)

/-- A loop that may end, at the state that decides about another round. -/
theorem laidStep_loop {id again finish d num : Nat} {greedy : Bool} {suffix : Suffix}
    {ops : List Operation}
    (hways : source.network.ways? id = some (!greedy, toRound again finish greedy))
    (hid : source.network.decisions[d]? = some id) {choice : Choice}
    (hchoice : choice = source.choice (some suffix) d [⟨num, ops⟩] ∨
      choice = (source.choice (some suffix) d [⟨num, ops⟩]).again)
    (hstar : choice.kind.isStar = true) (hbody : source.Laid ops again id) :
    source.LaidStep (.choice choice) id finish := by
  have halts : choice.alts = [⟨num, ops⟩] := by rcases hchoice with rfl | rfl <;> rfl
  have hround : ∀ target, target = again ∨ target = finish → source.Passes id target := by
    intro target htarget
    refine .of_ways? hways ?_
    unfold toRound
    rcases htarget with rfl | rfl <;> cases greedy <;> simp
  have hsettles := @hanalyzed.settles _ (some suffix) d id [⟨num, ops⟩] hid _ _ hways
    (fun _ => again) (some finish)
    (by rintro hgreedy k hk
        obtain rfl : greedy = true := by cases greedy <;> first | rfl | cases hgreedy
        obtain rfl : k = 0 := Nat.lt_one_iff.mp hk
        rfl)
    (by rintro hgreedy e he
        obtain rfl : greedy = true := by cases greedy <;> first | rfl | cases hgreedy
        obtain rfl := Option.some.inj he
        rfl)
  refine @LaidStep.star _ _ (fun _ => again) _ _ hstar (fun _ _ => hround again (.inl rfl))
    (hround finish (.inr rfl)) ?_ fun k alt halt => ?_
  · -- the rounds behind the first one obey the same tests
    rcases hchoice with rfl | rfl
    · exact hsettles
    · exact ⟨fun hll1 => hsettles.enter (by rw [← hll1]; exact (ChoiceKind.isLL1_again _).symm),
        fun hll1 => hsettles.pass (by rw [← hll1]; exact (ChoiceKind.isLL1_again _).symm)⟩
  · rw [halts] at halt
    obtain rfl := List.mem_singleton.mp (List.mem_of_getElem? halt)
    exact hbody

theorem laid_under (hcodes : source.LaidAlts codes parts) (hne : codes ≠ []) {token first : Nat}
    {greedy : Bool} {suffix : Suffix} {whole : Handle}
    (hunder : Under source.network token first greedy suffix parts whole made)
    (hkept : source.Kept made) :
    source.Laid (source.suffixed suffix greedy token first codes) whole.left whole.right := by
  have hlength := hcodes.length_eq
  -- the decision between several alternatives in a loop
  have hseveral : ∀ {site start}, source.Kept (among token site parts.length start) →
      parts.length ≠ 1 → ∃ d, source.network.decisionAt? token site = some d ∧
        source.network.decisions[d]? = some start := by
    intro site start hkept hmany
    refine hkept ((token, site), start) ?_
    unfold among
    have := List.length_pos_iff.mpr hne
    rw [if_pos (by omega)]
    exact List.mem_singleton_self _
  cases hunder with
  | optional hleft hrights =>
      obtain ⟨d, hd, hid⟩ := hkept _ (List.mem_singleton_self _)
      rw [show source.suffixed .optional greedy token first codes = _ from choiceAt_eq hd ..]
      generalize hshift : (codes.map fun code =>
        { code with num := code.num + if greedy then 0 else 1 }) = codes'
      have hcodes' : source.LaidAlts codes' parts := by
        rw [← hshift]
        exact List.forall₂_map_left_iff.mpr hcodes
      have hlength' := hcodes'.length_eq
      have hblock : (source.choice (some .optional) d codes').kind.isBlock = false :=
        source.isBlock_choice ..
      have htargets : ∀ k < parts.length, .epsilon (target parts k) ∈
          toOptional parts whole.right greedy := by
        intro k hk
        have hmem := List.mem_of_getElem? (toParts_target hk)
        unfold toOptional
        split
        · exact List.mem_append_left _ hmem
        · exact List.mem_cons_of_mem _ hmem
      refine LaidStep.alone (@LaidStep.block _ _ (target parts) _ _ ?_ ?_ ?_ ?_ ?_ ?_)
      · exact Bool.eq_false_iff.mpr fun h => by cases (source.isStar_choice ..).mp h
      · exact Bool.eq_false_iff.mpr fun h => by cases (source.isPlus_choice ..).mp h
      · exact fun k hk => .of_ways? hleft (htargets k (hlength' ▸ hk))
      · refine fun _ => .of_ways? hleft ?_
        unfold toOptional
        split
        · exact List.mem_append_right _ (List.mem_singleton_self _)
        · exact List.mem_cons_self ..
      · rw [hblock]
        refine hanalyzed.settles hid hleft (fun hgreedy k hk => ?_) fun hgreedy e he => ?_
        all_goals
          obtain rfl : greedy = true := by cases greedy <;> first | rfl | cases hgreedy
          unfold toOptional
          rw [if_pos rfl]
        · have hk' : k < parts.length := hlength' ▸ hk
          rw [List.getElem?_append_left (by unfold toParts; rw [List.length_map]; exact hk')]
          exact toParts_target hk'
        · obtain rfl := Option.some.inj he
          have hcount : (toParts parts).length = codes'.length := by
            unfold toParts
            rw [List.length_map, hlength']
          rw [← hcount, List.getElem?_append_right (Nat.le_refl _), Nat.sub_self]
          rfl
      · exact fun k code hcode => hcodes'.up_to hrights hcode
  | star hstart hrights hinner hback hentry =>
      obtain ⟨d, hd, hid⟩ := hkept.right _ (List.mem_singleton_self _)
      rw [show source.suffixed .closure greedy token first codes = _ from choiceAt_eq hd ..]
      have hbody := laid_among hanalyzed hcodes hstart hrights (hseveral hkept.left)
      refine LaidStep.alone (laidStep_loop hanalyzed hentry hid (.inl rfl)
        ((source.isStar_choice ..).mpr rfl) ?_)
      exact hbody.after ((Passes.only hinner).trans (.only hback))
  | @plus _ _ inner back hstart hrights hinner hback =>
      obtain ⟨d, hd, hid⟩ := hkept.right _ (List.mem_singleton_self _)
      rw [show source.suffixed .positiveClosure greedy token first codes = _ from choiceAt_eq hd ..]
      have hbody := (laid_among hanalyzed hcodes hstart hrights (hseveral hkept.left)).after
        (.only hinner)
      have hplus : (source.choice (some .positiveClosure) d (source.loopBody token .plusBlock
          (1 + if greedy then 0 else 1) codes)).kind.isPlus = true :=
        (source.isPlus_choice ..).mpr rfl
      refine LaidStep.alone (@LaidStep.plus _ _ _ back _ hplus ?_ ?_)
      · rw [Choice.body]
        exact (List.flatMap_singleton ..).symm ▸ hbody
      · exact laidStep_loop hanalyzed hback hid (.inr rfl) (ChoiceKind.isStar_again hplus) hbody

end Constructs

/-! ## Elements -/

section Elements

variable {source : Source} {scope : Network.Scope} {e : Element} {part : Handle} {made : List Made}

/-- An element that reads one symbol has one step, which reads the same. -/
theorem element_of_isSymbol (hv : source.vocabulary.Fits) (he : e.isSymbol = true)
    (hformed : e.isFormed = true) (hfree : RangeFree e.nodes) (label : Option String) :
    ∃ op, source.element label e = [op] ∧ op.isReader = true ∧
      ∀ n, op.Reads source.dialect.greatest n ↔ source.dialect.Matches e n := by
  have hcoded : source.dialect.Coded (source.element label e) [e] := by
    have hfound : source.KeysFound e.keys := by
      cases e <;> first | exact fun _ hkey => absurd hkey List.not_mem_nil | cases he
    have hcoded := (codes_element hv e hformed hfree).part hfound .done label
    rwa [List.append_nil] at hcoded
  cases hops : source.element label e with
  | nil =>
      cases e with
      | tokenRef | quotation | wildcard | set | not => rw [Source.element] at hops; cases hops
      | _ => cases he
  | cons op ops =>
      rw [hops] at hcoded
      cases hcoded with
      | opens hopened =>
          rw [Element.opened?_of_isSymbol he] at hopened
          cases hopened
      | reads hop _ hreads hrest =>
          cases hrest
          exact ⟨op, rfl, hop, hreads⟩
      | _ => cases he

/-- How the elements of a scope are understood in a model. -/
structure Understands (source : Source) (scope : Network.Scope) : Prop where
  hosts : source.network.Hosts source.dialect
  scope : scope.dialect source.dialect.passes = source.dialect

theorem Understands.kind (h : source.Understands scope) : scope.kind = .parser :=
  congrArg Dialect.kind h.scope

/-- A symbol is read by the step of an element as by its transition. -/
theorem laid_symbol (h : source.Understands scope) (he : e.isSymbol = true)
    (hformed : e.isFormed = true) (hfree : RangeFree e.nodes) {t : Transition}
    (ht : Network.reader? scope part.right e = some t)
    (hways : source.network.ways? part.left = some (false, [t])) (label : Option String) :
    source.Laid (source.element label e) part.left part.right := by
  have hhas : source.network.Has part.left t := .of_ways? hways (List.mem_singleton_self _)
  obtain ⟨op, hops, -, hop⟩ := element_of_isSymbol h.hosts.fits he hformed hfree label
  have hosts := h.hosts
  rw [← h.scope] at hosts
  obtain ⟨htarget, -, hreads⟩ := hosts.reads ht
  have hset : ∀ set invert, op = .matchSet set invert →
      source.LaidStep op part.left part.right := by
    rintro set invert rfl
    refine .set hhas htarget fun n hn => (hreads n).mpr ?_
    rw [h.scope]
    rw [h.hosts.maxSymbol] at hn
    exact (hop n).mp hn
  rw [hops]
  refine LaidStep.alone ?_
  have hkind : scope.kind ≠ .lexer := by
    rw [h.kind]
    decide
  cases e with
  | tokenRef name options extent =>
      rw [Network.reader?, if_neg hkind] at ht
      obtain rfl := Option.some.inj ht
      rw [Source.element] at hops
      obtain rfl := List.singleton_inj.mp hops
      have hvocabulary := congrArg Dialect.vocabulary h.scope
      rw [show scope.vocabulary = source.vocabulary from hvocabulary] at hhas
      exact .token hhas
  | quotation literal =>
      rw [Network.reader?, if_neg hkind] at ht
      obtain rfl := Option.some.inj ht
      rw [Source.element] at hops
      obtain rfl := List.singleton_inj.mp hops
      have hvocabulary := congrArg Dialect.vocabulary h.scope
      rw [show scope.vocabulary = source.vocabulary from hvocabulary] at hhas
      exact .token hhas
  | wildcard options extent =>
      rw [Network.reader?, if_neg hkind] at ht
      obtain rfl := Option.some.inj ht
      rw [Source.element] at hops
      obtain rfl := List.singleton_inj.mp hops
      exact .wildcard hhas
  | set elements extent =>
      rw [Source.element] at hops
      exact hset _ _ (List.singleton_inj.mp hops).symm
  | not operand extent =>
      rw [Source.element] at hops
      exact hset _ _ (List.singleton_inj.mp hops).symm
  | _ => cases he

theorem laid_leaf (h : source.Understands scope) (hformed : e.isFormed = true)
    (hfree : RangeFree e.nodes) {t : Transition} (hleaf : Network.Leaf source.network scope part.right e t)
    (hways : source.network.ways? part.left = some (false, [t])) (label : Option String) :
    source.Laid (source.element label e) part.left part.right := by
  have hhas : source.network.Has part.left t := .of_ways? hways (List.mem_singleton_self _)
  have hgrammar : scope.grammar = source.grammar := congrArg Dialect.grammar h.scope
  have hparser : source.dialect.kind = .parser := rfl
  -- a name that is called stands for a rule of the parser, if it stands for one at all
  have hcallee : ∀ {name callee}, source.grammar.rule? name = some callee →
      callee.isLexerRule = false → scope.callee? name = some callee := by
    intro name callee hrule hlexer
    unfold Network.Scope.callee?
    rw [hgrammar, hrule, Option.filter_some, h.kind, hlexer]
    rfl
  cases hleaf with
  | reads ht =>
      have he : e.isSymbol = true := by
        cases e with
        | range => exact absurd rfl (hfree _ (mem_nodes_self _))
        | _ => first | rfl | cases ht
      exact laid_symbol h he hformed hfree ht hways label
  | call hcalls hcalled hstart =>
      rw [h.kind] at hcalls
      obtain ⟨r, rfl, hcall⟩ := Dialect.eq_ruleRef_of_calls? hparser hcalls
      obtain ⟨rfl, rfl⟩ := Prod.mk.inj hcall
      rw [Source.element]
      refine LaidStep.alone (.invoke fun callee hrule hlexer => ?_)
      obtain rfl := Option.some.inj ((hcallee hrule hlexer).symm.trans hcalled)
      exact ⟨_, _, hstart, hhas⟩
  | missing hcalls hnone =>
      rw [h.kind] at hcalls
      obtain ⟨r, rfl, hcall⟩ := Dialect.eq_ruleRef_of_calls? hparser hcalls
      obtain ⟨rfl, rfl⟩ := Prod.mk.inj hcall
      rw [Source.element]
      refine LaidStep.alone (.invoke fun callee hrule hlexer => ?_)
      rw [hcallee hrule hlexer] at hnone
      cases hnone
  | action code index =>
      rw [Source.element]
      exact LaidStep.alone (.action hhas)
  | predicate index hnone =>
      rw [Source.element, hnone]
      exact LaidStep.alone (.predicate hhas)
  | precedence hsome =>
      rw [Source.element, hsome]
      exact LaidStep.alone (.precedence hhas)
  | command =>
      rw [Source.element]
      exact .nil (.only hways)
  | epsilon =>
      rw [Source.element]
      exact .nil (.only hways)

/-- Elements one behind the other are laid out from the first one to the last one. -/
theorem laid_joined {es : List Element} {parts : List Handle} {whole : Handle}
    (hrow : List.Forall₂ (fun e part => source.Laid (source.element none e) part.left part.right)
      es parts)
    (hjoined : Joined source.network parts whole) :
    source.Laid (source.elements es) whole.left whole.right := by
  induction hjoined generalizing es with
  | nothing hways =>
      cases hrow
      rw [Source.elements]
      exact .nil (.only hways)
  | last part =>
      obtain ⟨e, rfl⟩ := List.length_eq_one_iff.mp hrow.length_eq
      rw [Source.elements, Source.elements, List.append_nil]
      exact (List.forall₂_cons.mp hrow).1
  | cons hways hjoined ih =>
      cases hrow with
      | cons hfirst hrest =>
          have hlaid := ih hrest
          rw [hjoined.left_eq] at hlaid
          rw [Source.elements]
          exact (hfirst.after (.only hways)).append hlaid

/-- What is in an element is laid out in its place. A suffix asks for the alternatives of a block
apart from the choice between them. -/
structure LaysBoth (source : Source) (scope : Network.Scope) (e : Element) : Prop where
  part : ∀ {part : Handle} {made : List Made}, Placed source.network scope e part made →
    source.Kept made → ∀ label, source.Laid (source.element label e) part.left part.right
  alts : ∀ {alts options extent}, e = .block alts options extent →
    ∀ {parts : List Handle} {made : List Made}, PlacedAlts source.network scope alts parts made →
      source.Kept made → source.LaidAlts (source.alts 1 alts) parts

theorem LaysBoth.leaf (h : source.Understands scope) (hformed : e.isFormed = true)
    (hfree : RangeFree e.nodes)
    (hleaf : ∀ {part made}, Placed source.network scope e part made →
      ∃ t, Network.Leaf source.network scope part.right e t ∧
        source.network.ways? part.left = some (false, [t]))
    (hblock : ∀ alts options extent, e ≠ .block alts options extent) : LaysBoth source scope e := by
  refine ⟨fun hplaced _ label => ?_, fun he => absurd he (hblock _ _ _)⟩
  obtain ⟨t, ht, hways⟩ := hleaf hplaced
  exact laid_leaf h hformed hfree ht hways label

theorem LaysBoth.suffixed (hanalyzed : source.Analyzed) {inner : Element}
    (hinner : LaysBoth source scope inner)
    (hformed : inner.isFormed = true) (suffix : Suffix) (greedy : Bool) (extent : Extent) :
    LaysBoth source scope (.suffixed suffix greedy inner extent) := by
  refine ⟨fun {part made} hplaced hkept label => ?_, nofun⟩
  cases hplaced with
  | leaf hleaf => exact absurd hleaf (by rintro ⟨⟩ <;> contradiction)
  | blockUnder halts hunder =>
      have hcodes := hinner.alts rfl halts hkept.left
      rw [Source.element]
      refine laid_under hanalyzed hcodes ?_ hunder hkept.right
      rintro hnil
      rw [Element.isFormed, List.length_eq_zero_iff.mp
        ((length_alts 1 _).symm.trans (congrArg List.length hnil))] at hformed
      cases hformed
  | under hblock hplaced hunder =>
      have hbody := hinner.part hplaced hkept.left none
      rw [Source.element]
      · exact laid_under hanalyzed (.cons hbody .nil) (List.cons_ne_nil _ _) hunder hkept.right
      · exact hblock

mutual
theorem lays_element (hanalyzed : source.Analyzed) (h : source.Understands scope) :
    ∀ e : Element, e.isFormed = true → RangeFree e.nodes →
    LaysBoth source scope e
  | .block alts options extent, hformed, hfree => by
      rw [Element.isFormed, Bool.and_eq_true] at hformed
      have halts := lays_alts hanalyzed h alts hformed.2 hfree.tail
      refine ⟨fun {part made} hplaced hkept label => ?_, fun he => ?_⟩
      · cases hplaced with
        | leaf hleaf => exact absurd hleaf (by rintro ⟨⟩ <;> contradiction)
        | block hplaced hchosen =>
            rw [Source.element]
            exact laid_chosen hanalyzed (halts 1 hplaced hkept.left) hchosen hkept.right
      · obtain ⟨rfl, -, -⟩ := Element.block.inj he
        exact fun hplaced hkept => halts 1 hplaced hkept
  | .suffixed suffix greedy inner extent, hformed, hfree =>
      (lays_element hanalyzed h inner hformed hfree.tail).suffixed hanalyzed hformed suffix greedy extent
  | .labeled _ name _ inner _, hformed, hfree => by
      refine ⟨fun {part made} hplaced hkept label => ?_, nofun⟩
      cases hplaced with
      | leaf hleaf => exact absurd hleaf (by rintro ⟨⟩ <;> contradiction)
      | labeled hinner =>
          rw [Source.element]
          exact (lays_element hanalyzed h inner hformed hfree.tail).part hinner hkept (some name)
  | .quotation literal, hformed, hfree => by
      refine .leaf h hformed hfree (fun hplaced => ?_) nofun
      cases hplaced with
      | leaf hleaf hways => exact ⟨_, hleaf, hways⟩
      | word hkind | noWord hkind =>
          rw [h.kind] at hkind
          cases hkind
  | .ruleRef _, hformed, hfree | .tokenRef _ _ _, hformed, hfree | .range _ _ _, hformed, hfree
  | .wildcard _ _, hformed, hfree | .not _ _, hformed, hfree | .set _ _, hformed, hfree
  | .action _, hformed, hfree | .predicate _, hformed, hfree | .command _ _ _, hformed, hfree
  | .epsilon _, hformed, hfree => by
      refine .leaf h hformed hfree (fun hplaced => ?_) nofun
      cases hplaced with
      | leaf hleaf hways => exact ⟨_, hleaf, hways⟩

theorem lays_row (hanalyzed : source.Analyzed) (h : source.Understands scope) :
    ∀ es : List Element, Element.listFormed es = true →
    RangeFree (Element.listNodes es) → ∀ {parts : List Handle} {made : List Made},
      PlacedRow source.network scope es parts made → source.Kept made →
        List.Forall₂ (fun e part => source.Laid (source.element none e) part.left part.right)
          es parts
  | [], _, _, _, _, hplaced, _ => by
      cases hplaced
      exact .nil
  | e :: es, hformed, hfree, _, _, hplaced, hkept => by
      rw [Element.listFormed, Bool.and_eq_true] at hformed
      cases hplaced with
      | cons hpart hrest =>
          exact .cons ((lays_element hanalyzed h e hformed.1 hfree.left).part hpart hkept.left none)
            (lays_row hanalyzed h es hformed.2 hfree.right hrest hkept.right)

theorem lays_alts (hanalyzed : source.Analyzed) (h : source.Understands scope) :
    ∀ alts : List Alt, Alt.listFormed alts = true →
    RangeFree (Alt.listNodes alts) → ∀ (num : Nat) {parts : List Handle} {made : List Made},
      PlacedAlts source.network scope alts parts made → source.Kept made →
        source.LaidAlts (source.alts num alts) parts
  | [], _, _, _, _, _, hplaced, _ => by
      cases hplaced
      exact .nil
  | ⟨elements, options, label, extent, info⟩ :: alts, hformed, hfree, num, _, _, hplaced, hkept => by
      rw [Alt.listFormed, Bool.and_eq_true] at hformed
      cases hplaced with
      | cons hrow hjoined hrest =>
          rw [Source.alts]
          exact .cons
            (laid_joined (lays_row hanalyzed h elements hformed.1 hfree.left hrow hkept.left) hjoined)
            (lays_alts hanalyzed h alts hformed.2 hfree.right (num + 1) hrest hkept.right)
end

end Elements

/-! ## Rules -/

section Rules

variable {source : Source}

/-- The lookahead that is searched for in a network is exact. -/
theorem analyzed_of_searchable (h : source.network.Searchable)
    (hlook : source.look = source.network.decisions.toList.map source.network.lookAt) :
    source.Analyzed := by
  refine ⟨hlook, fun id state hstate => ?_, fun id state hstate i t set ht hset => ?_⟩
  · rw [Network.decisionLook_eq hstate, List.length_map]
  · rw [Network.decisionLook_eq hstate, List.getElem?_map, ht] at hset
    have hset := Option.some.inj hset
    obtain ⟨hcanonical, hmem⟩ := Network.mem_searchFrom h t.target
    obtain ⟨hnone, hsome⟩ := Network.alternative?_spec hcanonical hmem
    refine ⟨(hsome set hset).1, fun hinvalid => ?_, (hsome set hset).2⟩
    exact Option.some_ne_none set (hset.symm.trans (hnone.mpr (.inr hinvalid)))

/-- The function of a rule is laid out from the start of the rule to its stop. -/
theorem laid_housed (hanalyzed : source.Analyzed) (hosts : source.network.Hosts source.dialect)
    {rule : Rule} {definition : RuleDef} {made : List Made}
    (h : Network.Housed source.network
      (Network.scopeOf source.grammar source.vocabulary .parser rule definition) definition made)
    (hformed : definition.isFormed = true) (hfree : RangeFree definition.nodes)
    (hkept : source.Kept made) :
    ∃ start stop : Nat, source.network.ruleStarts[rule.index]? = some start ∧
      source.network.ruleStops[rule.index]? = some stop ∧
      source.Laid (source.rule rule definition).body start stop := by
  rw [RuleDef.isFormed, Bool.and_eq_true] at hformed
  have hunderstands : source.Understands
      (Network.scopeOf source.grammar source.vocabulary .parser rule definition) := ⟨hosts, rfl⟩
  cases h with
  | mk hstart hstop hleft halts hchosen hright =>
      refine ⟨_, _, hstart, hstop, ?_⟩
      have hcodes := lays_alts hanalyzed hunderstands definition.alts hformed.2 hfree 1 halts
        hkept.left
      exact ((laid_chosen hanalyzed hcodes hchosen hkept.right).before (.only hleft)).after
        (.only hright)

theorem laid_housedAll (hanalyzed : source.Analyzed) (hosts : source.network.Hosts source.dialect)
    {rules : List Rule} {made : List Made}
    (h : Network.HousedAll source.grammar source.vocabulary .parser source.network rules made)
    (hkept : source.Kept made) {rule : Rule} (hrule : rule ∈ rules) {definition : RuleDef}
    (hdefinition : source.grammar.definition? rule = some definition)
    (hformed : definition.isFormed = true) (hfree : RangeFree definition.nodes) :
    ∃ start stop : Nat, source.network.ruleStarts[rule.index]? = some start ∧
      source.network.ruleStops[rule.index]? = some stop ∧
      source.Laid (source.rule rule definition).body start stop := by
  induction h with
  | nil => cases hrule
  | undefined hnone _ ih =>
      rcases List.mem_cons.mp hrule with rfl | hrule
      · rw [hnone] at hdefinition
        cases hdefinition
      · exact ih hkept hrule
  | cons hsome hhoused _ ih =>
      rcases List.mem_cons.mp hrule with rfl | hrule
      · obtain rfl := Option.some.inj (hsome.symm.trans hdefinition)
        exact laid_housed hanalyzed hosts hhoused hformed hfree hkept.left
      · exact ih hkept.right hrule

end Rules

end Source

end ParserModel

/-- What the model of a compilation is made from. -/
def Compilation.source (compilation : Compilation) (options : CompileOptions) (network : Network) :
    ParserModel.Source :=
  ⟨compilation.grammar, network, compilation.vocabulary, compilation.look, options⟩

/-- The lookahead of a compilation is exact. -/
theorem analyzed_of_compile {options : CompileOptions} {library : Library} {file text : String}
    {compilation : Compilation} (hcompile : compile options library file text = .ok compilation)
    (hsize : compilation.vocabulary.nextType ≤ Text.maxInt32)
    {network : Network} (hparser : compilation.parser = some network) :
    (compilation.source options network).Analyzed := by
  obtain ⟨collected, report, hgather, hmade⟩ := made_of_compile hcompile
  have hcollected : collected.Built := .gathered hgather
  have hbuilt : compilation.grammar.Built := by
    rw [hmade.grammar]
    exact .eliminated _ hcollected
  obtain ⟨hv, hmax⟩ : compilation.vocabulary.Fits ∧
      compilation.vocabulary.maxType < Text.maxInt32 := by
    rw [hmade.vocabulary] at hsize ⊢
    exact (Vocabulary.below_ofGrammar _).fits hsize
  obtain ⟨hnetwork, hcycles, hlook⟩ := hmade.look hcollected hv hparser
  refine ParserModel.Source.analyzed_of_searchable ?_ hlook
  show network.Searchable
  rw [hnetwork] at hcycles ⊢
  exact Network.searchable_ofGrammar hbuilt.steady.numbered hv hmax hcycles

namespace Compilation.Decided

variable {compilation : Compilation} {options : CompileOptions} {network : Network}
  {made : List Network.Made} (h : compilation.Decided options network made)

include h

theorem hosts : network.Hosts (compilation.source options network).dialect := by
  rw [h.ofGrammar]
  exact Network.hosts_ofGrammar h.steady.numbered h.fits .parser _

theorem kept : (compilation.source options network).Kept made := by
  intro m hm
  obtain ⟨i, hi⟩ := List.mem_iff_getElem?.mp hm
  refine ⟨i, h.found i m hi, ?_⟩
  show network.decisions[i]? = some m.2
  rw [← Array.getElem?_toList, h.decisions, List.getElem?_map, hi]
  rfl

/-- The function of a rule that reads no ranges is laid out from the start of the rule to its stop. -/
theorem laid (hanalyzed : (compilation.source options network).Analyzed) {rule : Rule}
    (hrule : rule ∈ compilation.grammar.parserRules) {definition : RuleDef}
    (hdefinition : compilation.grammar.definition? rule = some definition)
    (hfree : ParserModel.Source.RangeFree definition.nodes) :
    ∃ start stop : Nat, network.ruleStarts[rule.index]? = some start ∧
      network.ruleStops[rule.index]? = some stop ∧
      (compilation.source options network).Laid
        ((compilation.source options network).rule rule definition).body start stop :=
  ParserModel.Source.laid_housedAll hanalyzed h.hosts h.housed h.kept hrule hdefinition
    (h.steady.formed definition (List.mem_of_getElem? hdefinition)) hfree

end Compilation.Decided

open ParserModel.Source (RangeFree) in
/-- The model of a parser whose constructs have keys of their own is laid out in its network. -/
theorem wired_of_compile {options : CompileOptions} {library : Library} {file text : String}
    {compilation : Compilation} (hcompile : compile options library file text = .ok compilation)
    (hapart : compilation.grammar.ParserApart)
    (hsize : compilation.vocabulary.nextType ≤ Text.maxInt32)
    {network : Network} (hparser : compilation.parser = some network)
    (hfree : ∀ rule ∈ compilation.grammar.parserRules, ∀ definition,
      compilation.grammar.definition? rule = some definition → RangeFree definition.nodes) :
    (compilation.source options network).Wired (compilation.source options network).model := by
  obtain ⟨made, hdecided⟩ := decided_of_apart hcompile hapart hsize hparser
  have hnumbered := hdecided.steady.numbered
  have hnetwork := hdecided.ofGrammar
  have hanalyzed := analyzed_of_compile hcompile hsize hparser
  refine ⟨hdecided.hosts.minSymbol, fun function hfunction => ?_, fun name function hfunction => ?_⟩
  · obtain ⟨rule, hrule, hsome⟩ := List.mem_filterMap.mp hfunction
    obtain ⟨definition, hdefinition, rfl⟩ := Option.map_eq_some_iff.mp hsome
    obtain ⟨start, stop, hstart, hstop, hlaid⟩ := hdecided.laid hanalyzed hrule hdefinition
      (hfree rule hrule definition hdefinition)
    refine ⟨start, stop, hstart, hlaid, hdecided.hosts.stops _ _ hstop, fun a p follow hhas => ?_⟩
    obtain ⟨reluctant, ts, hways, ht⟩ := hhas.ways?
    have hreturn := Network.returns_ofGrammar hnumbered hdecided.fits .parser
      (by rw [← hnetwork]; exact hways) ht (by rw [← hnetwork]; exact hstop)
    rw [← hnetwork] at hreturn
    obtain ⟨state, hstate, hmem⟩ := hreturn
    exact ⟨state, hstate, fun _ => rfl, hmem⟩
  · rw [ParserModel.Source.function?_model hdecided.steady] at hfunction
    obtain ⟨callee, hcallee, hfunction⟩ := Option.bind_eq_some_iff.mp hfunction
    obtain ⟨definition, -, rfl⟩ := Option.map_eq_some_iff.mp hfunction
    obtain ⟨hrule, hlexer⟩ := Option.filter_eq_some_iff.mp hcallee
    exact ⟨callee, hrule, beq_iff_eq.mp hlexer, rfl⟩

end GrammarCompiler
