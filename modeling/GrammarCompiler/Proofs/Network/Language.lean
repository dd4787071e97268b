import GrammarCompiler.Proofs.Grammar.Built
import GrammarCompiler.Proofs.Network.Housing
import GrammarCompiler.Proofs.Network.Runs

/-!
# A network reads what its grammar derives

The paths through a rule of a network read the texts that its definition derives. A derivation
becomes a path by its own shape, since a row of elements that lies between two states is threaded
through them (`Threads`). A path falls apart into the elements of the rule by their shape
(`Splits`); a rule that is called on it has a shorter path of its own, so this is an induction on
the number of transitions.
-/

namespace GrammarCompiler

namespace Network

/-- A network in which the rules of a grammar have their places. -/
structure Hosts (network : Network) (dialect : Dialect) : Prop where
  kind : network.kind = dialect.kind
  maxSymbol : network.maxSymbol = dialect.greatest
  fits : dialect.vocabulary.Fits
  stops : ∀ rule stop : Nat, network.ruleStops[rule]? = some stop → network.IsStop stop
  housed : ∀ rule ∈ rulesOf dialect.grammar dialect.kind, ∀ definition,
    dialect.grammar.definition? rule = some definition → ∃ made,
      Housed network (scopeOf dialect.grammar dialect.vocabulary dialect.kind rule definition)
        definition made

theorem hosts_ofGrammar {grammar : Grammar} (hg : grammar.Numbered) {vocabulary : Vocabulary}
    (hv : vocabulary.Fits) (kind : NetworkKind) (passes : Int → Int → Prop) :
    (ofGrammar grammar vocabulary kind).Hosts ⟨grammar, vocabulary, kind, passes⟩ := by
  obtain ⟨hsound, hmax, hkind, -⟩ := sound_ofGrammar hg hv kind
  obtain ⟨made, hhoused, -⟩ := housed_ofGrammar hg hv kind
  refine ⟨hkind, ?_, hv, fun rule stop hstop => ?_, fun rule hrule definition hdefinition => ?_⟩
  · rw [hmax]
    cases kind <;> rfl
  · obtain ⟨state, hstate, -, hstop⟩ := hsound.stops rule stop hstop
    exact ⟨state, hstate, hstop⟩
  · exact hhoused.housed hrule hdefinition

theorem mem_rulesOf_of_rule? {dialect : Dialect} {name : String} {rule : Rule}
    (h : dialect.rule? name = some rule) : rule ∈ rulesOf dialect.grammar dialect.kind := by
  obtain ⟨hname, hkind⟩ := Option.filter_eq_some_iff.mp h
  exact mem_rulesOf (List.mem_of_find?_eq_some hname) (beq_iff_eq.mp hkind)

section Language

variable {network : Network} {dialect : Dialect} {scope : Scope}

/-! ## Leaves -/

theorem isEpsilon_of_reads {t : Transition} {n : Int} (h : network.Reads t n) :
    t.isEpsilon = false := by
  cases t <;> first | rfl | exact h.elim

theorem calls?_of_matches {e : Element} {n : Int} (h : dialect.Matches e n) :
    Dialect.calls? dialect.kind e = none := by
  cases h with
  | token _ _ _ hkind => rw [Dialect.calls?, hkind]; rfl
  | _ => rfl

theorem reader?_of_calls? {target : Nat} {e : Element} {call : String × Int}
    (h : Dialect.calls? scope.kind e = some call) : reader? scope target e = none := by
  cases e with
  | tokenRef name options extent =>
      rw [Dialect.calls?] at h
      split at h
      · next hkind => rw [reader?, if_pos hkind]
      · cases h
  | ruleRef r => rfl
  | _ => cases h

theorem Hosts.minSymbol (h : network.Hosts dialect) : network.minSymbol = dialect.least := by
  unfold Network.minSymbol Dialect.least
  cases hkind : dialect.kind with
  | lexer => rw [h.kind, hkind]
  | parser => rw [h.kind, hkind]

/-- The transition of an element reads the symbols of the element. -/
theorem Hosts.reads {passes : Int → Int → Prop} (h : network.Hosts (scope.dialect passes))
    {target : Nat} {e : Element} {t : Transition} (ht : reader? scope target e = some t) :
    t.target = target ∧ t.isEpsilon = false ∧
      ∀ n, network.Reads t n ↔ (scope.dialect passes).Matches e n := by
  have hmin := h.minSymbol
  have hmax := h.maxSymbol
  have hparser : scope.kind ≠ .lexer → scope.kind = .parser := by
    cases scope.kind with
    | lexer => exact fun hne => absurd rfl hne
    | parser => exact fun _ => rfl
  cases e with
  | tokenRef name options extent =>
      rw [reader?] at ht
      split at ht
      · cases ht
      · next hkind =>
          obtain rfl := Option.some.inj ht
          refine ⟨rfl, rfl, fun n => ⟨?_, ?_⟩⟩
          · rintro rfl
            exact .token name options extent (hparser hkind)
          · rintro (_ | _)
            rfl
  | quotation literal =>
      rw [reader?] at ht
      split at ht
      · cases ht
      · next hkind =>
          obtain rfl := Option.some.inj ht
          refine ⟨rfl, rfl, fun n => ⟨?_, ?_⟩⟩
          · rintro rfl
            exact .literal literal (hparser hkind)
          · rintro (_ | _)
            rfl
  | range first last extent =>
      obtain rfl := Option.some.inj ht
      refine ⟨rfl, rfl, fun n => ⟨fun hn => .range hn.1 hn.2, ?_⟩⟩
      rintro (_ | _ | ⟨hfirst, hlast⟩)
      exact ⟨hfirst, hlast⟩
  | wildcard options extent =>
      obtain rfl := Option.some.inj ht
      have hbounds : ∀ n, (scope.dialect passes).Matches (.wildcard options extent) n ↔
          (scope.dialect passes).least ≤ n ∧ n ≤ (scope.dialect passes).greatest := by
        refine fun n => ⟨?_, fun hn => .wildcard hn.1 hn.2⟩
        rintro (_ | _ | _ | ⟨hleast, hgreatest⟩)
        exact ⟨hleast, hgreatest⟩
      split
      · next hkind =>
          refine ⟨rfl, rfl, fun n => ?_⟩
          rw [hbounds]
          unfold Dialect.least Dialect.greatest
          rw [show (scope.dialect passes).kind = .lexer from hkind]
          exact IntervalSet.mem_range (by decide) n
      · refine ⟨rfl, rfl, fun n => ?_⟩
        rw [hbounds, ← hmin, ← hmax]
        rfl
  | set elements extent =>
      obtain rfl := Option.some.inj ht
      have hmem := (gains_operandSymbols passes h.fits (.set elements extent)).mem
      refine ⟨rfl, rfl, fun n => ⟨fun hn => .set ?_, ?_⟩⟩
      · exact ((hmem n).mp hn).resolve_left (IntervalSet.not_mem_empty n)
      · rintro (_ | _ | _ | _ | hn)
        exact (hmem n).mpr (Or.inr hn)
  | not operand extent =>
      obtain rfl := Option.some.inj ht
      have hmem := (gains_operandSymbols passes h.fits operand).mem
      refine ⟨rfl, rfl, fun n => ⟨fun ⟨hleast, hgreatest, hn⟩ => ?_, ?_⟩⟩
      · rw [hmin] at hleast
        rw [hmax] at hgreatest
        exact .not hleast hgreatest fun hin => hn ((hmem n).mpr (Or.inr hin))
      · rintro (_ | _ | _ | _ | _ | ⟨hleast, hgreatest, hn⟩)
        rw [← hmin] at hleast
        rw [← hmax] at hgreatest
        exact ⟨hleast, hgreatest, fun hin =>
          hn (((hmem n).mp hin).resolve_left (IntervalSet.not_mem_empty n))⟩
  | _ => cases ht

/-! ## Derivations become paths -/

/-- A state is reached without reading anything. -/
abbrev Quiet (network : Network) : Nat → Nat → Prop :=
  Relation.ReflTransGen fun id target => network.Inner id (.epsilon target)

theorem quiet_of_ways? {id target : Nat} {reluctant : Bool} {ts : List Transition}
    (h : network.ways? id = some (reluctant, ts)) (ht : .epsilon target ∈ ts) :
    Quiet network id target :=
  .single (inner_iff_ways?.mpr ⟨reluctant, ts, h, ht⟩)

theorem quiet_only {id target : Nat} {reluctant : Bool}
    (h : network.ways? id = some (reluctant, [.epsilon target])) : Quiet network id target :=
  quiet_of_ways? h (List.mem_singleton.mpr rfl)

/-- A path, however long. -/
def Way (network : Network) (passes : Int → Int → Prop) (entry : Int) (id : Nat) (w : List Int)
    (goal : Nat) : Prop :=
  ∃ k, Path network passes k entry id w goal

section Ways

variable {passes : Int → Int → Prop} {entry : Int} {id mid goal : Nat} {u w : List Int}

theorem Way.trans (h : Way network passes entry id u mid) (h' : Way network passes entry mid w goal) :
    Way network passes entry id (u ++ w) goal := by
  obtain ⟨_, h⟩ := h
  obtain ⟨_, h'⟩ := h'
  exact ⟨_, h.trans h'⟩

theorem Quiet.way (h : Quiet network id mid) (h' : Way network passes entry mid w goal) :
    Way network passes entry id w goal := by
  induction h using Relation.ReflTransGen.head_induction_on with
  | refl => exact h'
  | head hstep _ ih =>
      obtain ⟨k, hpath⟩ := ih
      exact ⟨_, .pass hstep rfl rfl trivial hpath⟩

end Ways

variable (network scope) in
/-- An element lies between two states, as a part or as a block whose alternatives do. -/
inductive Spans : Element → Nat → Nat → Prop
  | part {e : Element} {part : Handle} {made : List Made} : Placed network scope e part made →
    Spans e part.left part.right
  | block {alts : List Alt} {options : Options} {extent : Extent} {parts : List Handle}
    {made : List Made} {start finish : Nat} : PlacedAlts network scope alts parts made →
    (∀ p ∈ parts, Quiet network start p.left) → (∀ p ∈ parts, Quiet network p.right finish) →
      Spans (.block alts options extent) start finish

variable (network scope) in
/-- A row of elements is threaded through a network from one state to another. -/
inductive Threads : List Element → Nat → Nat → Prop
  | nil {id goal : Nat} : Quiet network id goal → Threads [] id goal
  | cons {e : Element} {row : List Element} {id left right goal : Nat} : Quiet network id left →
    Spans network scope e left right → Threads row right goal → Threads (e :: row) id goal

section Threads

variable {row row' : List Element} {id mid goal : Nat}

theorem Threads.quiet (hquiet : Quiet network id mid) (h : Threads network scope row mid goal) :
    Threads network scope row id goal := by
  cases h with
  | nil h => exact .nil (hquiet.trans h)
  | cons h hspans hrest => exact .cons (hquiet.trans h) hspans hrest

theorem Threads.append (h : Threads network scope row id mid)
    (h' : Threads network scope row' mid goal) : Threads network scope (row ++ row') id goal := by
  induction h with
  | nil hquiet => exact h'.quiet hquiet
  | cons hquiet hspans _ ih => exact .cons hquiet hspans (ih h')

theorem Joined.left_eq {part whole : Handle} {parts : List Handle}
    (h : Joined network (part :: parts) whole) : whole.left = part.left := by
  cases h with
  | last => rfl
  | cons _ _ => rfl

/-- The elements of an alternative are threaded through its part. -/
theorem threads_of_joined {row : List Element} {parts : List Handle} {whole : Handle}
    {made : List Made} (hrow : PlacedRow network scope row parts made)
    (h : Joined network parts whole) : Threads network scope row whole.left whole.right := by
  induction h generalizing row made with
  | nothing hways =>
      cases hrow with
      | nil => exact .nil (quiet_only hways)
  | last part =>
      cases hrow with
      | cons hpart hrest =>
          cases hrest with
          | nil => exact .cons .refl (.part hpart) (.nil .refl)
  | cons hways hjoined ih =>
      cases hrow with
      | cons hpart hrest =>
          have hspans := Spans.part hpart
          refine .cons .refl hspans ((ih hrest).quiet ?_)
          rw [hjoined.left_eq]
          exact quiet_only hways

/-- Every alternative is threaded through its part. -/
theorem threads_of_mem {alts : List Alt} {parts : List Handle} {made : List Made}
    (h : PlacedAlts network scope alts parts made) {alt : Alt} (halt : alt ∈ alts) :
    ∃ part ∈ parts, Threads network scope alt.elements part.left part.right := by
  induction alts generalizing parts made with
  | nil => cases halt
  | cons first rest ih =>
      cases h with
      | cons hrow hjoined hrest =>
          rcases List.mem_cons.mp halt with rfl | halt
          · exact ⟨_, List.mem_cons_self .., threads_of_joined hrow hjoined⟩
          · obtain ⟨part, hpart, hthreads⟩ := ih hrest halt
            exact ⟨part, List.mem_cons_of_mem _ hpart, hthreads⟩

end Threads

section Blocks

variable {parts : List Handle} {part whole : Handle} {made : List Made}

theorem quiet_toParts {id : Nat} {reluctant : Bool}
    (h : network.ways? id = some (reluctant, toParts parts)) :
    ∀ p ∈ parts, Quiet network id p.left :=
  fun p hp => quiet_of_ways? h (List.mem_map.mpr ⟨p, hp, rfl⟩)

theorem quiet_rights {finish : Nat}
    (h : ∀ p ∈ parts, network.ways? p.right = some (false, [.epsilon finish])) :
    ∀ p ∈ parts, Quiet network p.right finish :=
  fun p hp => quiet_only (h p hp)

theorem Chosen.quiet {token : Nat} {site : DecisionSite}
    (h : Chosen network token site parts whole made) :
    ∀ p ∈ parts, Quiet network whole.left p.left ∧ Quiet network p.right whole.right := by
  cases h with
  | alone part =>
      intro p hp
      rw [List.mem_singleton.mp hp]
      exact ⟨.refl, .refl⟩
  | among _ hleft hrights => exact fun p hp => ⟨quiet_toParts hleft p hp, quiet_rights hrights p hp⟩

theorem mem_toOptional {finish : Nat} {greedy : Bool} {t : Transition} :
    t ∈ toOptional parts finish greedy ↔ t ∈ toParts parts ∨ t = .epsilon finish := by
  unfold toOptional
  split
  · simp
  · simp [or_comm]

theorem mem_toRound {again finish : Nat} {greedy : Bool} {t : Transition} :
    t ∈ toRound again finish greedy ↔ t = .epsilon again ∨ t = .epsilon finish := by
  unfold toRound
  split <;> simp [or_comm]

/-- What a suffix allows: a way around, a way in to the parts and out of them, and a way from
behind the parts back in front. -/
theorem Under.quiet {token first : Nat} {greedy : Bool} {suffix : Suffix}
    (h : Under network token first greedy suffix parts whole made) :
    (suffix ≠ .positiveClosure → Quiet network whole.left whole.right) ∧
      ∃ start finish, Quiet network whole.left start ∧ Quiet network finish whole.right ∧
        (∀ p ∈ parts, Quiet network start p.left) ∧ (∀ p ∈ parts, Quiet network p.right finish) ∧
          (suffix ≠ .optional → Quiet network finish whole.left) := by
  cases h with
  | optional hleft hrights =>
      refine ⟨fun _ => quiet_of_ways? hleft (mem_toOptional.mpr (Or.inr rfl)), whole.left,
        whole.right, .refl, .refl, fun p hp => ?_, quiet_rights hrights, fun h => absurd rfl h⟩
      exact quiet_of_ways? hleft (mem_toOptional.mpr (Or.inl (List.mem_map.mpr ⟨p, hp, rfl⟩)))
  | @star _ _ start inner back hstart hrights hinner hback hentry =>
      have hexit := quiet_of_ways? hentry (mem_toRound.mpr (Or.inr rfl))
      have hback' := (quiet_only hinner).trans (quiet_only hback)
      exact ⟨fun _ => hexit, start, inner, quiet_of_ways? hentry (mem_toRound.mpr (Or.inl rfl)),
        hback'.trans hexit, quiet_toParts hstart, quiet_rights hrights, fun _ => hback'⟩
  | @plus _ _ inner back hstart hrights hinner hback =>
      have hagain := quiet_of_ways? hback (mem_toRound.mpr (Or.inl rfl))
      have hexit := quiet_of_ways? hback (mem_toRound.mpr (Or.inr rfl))
      exact ⟨fun h => absurd rfl h, whole.left, inner, .refl, (quiet_only hinner).trans hexit,
        quiet_toParts hstart, quiet_rights hrights, fun _ => (quiet_only hinner).trans hagain⟩

end Blocks

/-- What stands under a suffix lies inside the part of the whole. -/
theorem spans_inner {suffix : Suffix} {greedy : Bool} {inner : Element} {extent : Extent}
    {whole : Handle} {made : List Made}
    (h : Placed network scope (.suffixed suffix greedy inner extent) whole made) :
    (suffix ≠ .positiveClosure → Quiet network whole.left whole.right) ∧
      ∃ start finish, Quiet network whole.left start ∧ Quiet network finish whole.right ∧
        Spans network scope inner start finish ∧
          (suffix ≠ .optional → Quiet network finish whole.left) := by
  cases h with
  | leaf hleaf _ => exact absurd hleaf (by rintro ⟨⟩ <;> contradiction)
  | blockUnder halts hunder =>
      obtain ⟨haround, start, finish, hin, hout, hstart, hfinish, hback⟩ := hunder.quiet
      exact ⟨haround, start, finish, hin, hout, .block halts hstart hfinish, hback⟩
  | under _ hplaced hunder =>
      obtain ⟨haround, start, finish, hin, hout, hstart, hfinish, hback⟩ := hunder.quiet
      have hin' := hstart _ (List.mem_singleton.mpr rfl)
      have hout' := hfinish _ (List.mem_singleton.mpr rfl)
      exact ⟨haround, _, _, hin.trans hin', hout'.trans hout, .part hplaced,
        fun hsuffix => hout'.trans (hback hsuffix)⟩

/-- A symbol that an element matches is read by its transition. -/
theorem Placed.reads {e : Element} {part : Handle} {made : List Made}
    (h : Placed network scope e part made) {passes : Int → Int → Prop} {n : Int}
    (hmatches : (scope.dialect passes).Matches e n) :
    ∃ t, reader? scope part.right e = some t ∧ network.ways? part.left = some (false, [t]) := by
  have hcalls := calls?_of_matches hmatches
  cases h with
  | leaf hleaf hways =>
      cases hleaf with
      | reads ht => exact ⟨_, ht, hways⟩
      | call hcall => cases hcall.symm.trans hcalls
      | missing hcall => cases hcall.symm.trans hcalls
      | _ => cases hmatches
  | word hkind =>
      cases hmatches with
      | literal _ hparser => cases hkind.symm.trans hparser
  | noWord hkind =>
      cases hmatches with
      | literal _ hparser => cases hkind.symm.trans hparser
  | _ => cases hmatches

/-- An element that calls a rule has a transition that calls it. -/
theorem Placed.calls {e : Element} {part : Handle} {made : List Made}
    (h : Placed network scope e part made) {name : String} {precedence : Int}
    (hcalls : Dialect.calls? scope.kind e = some (name, precedence)) {callee : Rule}
    (hcallee : scope.callee? name = some callee) :
    ∃ start : Nat, network.ruleStarts[callee.index]? = some start ∧
      network.ways? part.left = some (false, [.rule start callee.index precedence part.right]) := by
  cases h with
  | leaf hleaf hways =>
      cases hleaf with
      | reads ht => cases (reader?_of_calls? hcalls).symm.trans ht
      | call hcalls' hcallee' hstart =>
          obtain ⟨rfl, rfl⟩ := Prod.mk.inj (Option.some.inj (hcalls.symm.trans hcalls'))
          obtain rfl := Option.some.inj (hcallee.symm.trans hcallee')
          exact ⟨_, hstart, hways⟩
      | missing hcalls' hnone =>
          obtain ⟨rfl, rfl⟩ := Prod.mk.inj (Option.some.inj (hcalls.symm.trans hcalls'))
          cases hcallee.symm.trans hnone
      | _ => cases hcalls
  | _ => cases hcalls

/-- Characters are read one after another. -/
theorem Spelt.way {id finish : Nat} {cs : List Char} (h : Spelt network id cs finish)
    (passes : Int → Int → Prop) (entry : Int) :
    Way network passes entry id (cs.map Symbol.ofChar) finish := by
  induction h with
  | nil => exact ⟨0, .done ..⟩
  | cons hways _ ih =>
      obtain ⟨k, hpath⟩ := ih
      exact ⟨k + 1, .read (inner_iff_ways?.mpr ⟨_, _, hways, List.mem_singleton.mpr rfl⟩) rfl hpath⟩

/-- The way through one transition. -/
theorem Way.read {passes : Int → Int → Prop} {entry n : Int} {id goal : Nat} {t : Transition}
    {w : List Int} (hways : network.ways? id = some (false, [t])) (hreads : network.Reads t n)
    (h : Way network passes entry t.target w goal) : Way network passes entry id (n :: w) goal := by
  obtain ⟨k, hpath⟩ := h
  exact ⟨k + 1, .read (inner_iff_ways?.mpr ⟨_, _, hways, List.mem_singleton.mpr rfl⟩) hreads hpath⟩

theorem Way.pass {passes : Int → Int → Prop} {entry : Int} {id goal : Nat} {t : Transition}
    {w : List Int} (hways : network.ways? id = some (false, [t])) (heps : t.isEpsilon = true)
    (hcall : t.isCall = false) (hpass : Passes passes entry t)
    (h : Way network passes entry t.target w goal) : Way network passes entry id w goal := by
  obtain ⟨k, hpath⟩ := h
  exact ⟨k + 1,
    .pass (inner_iff_ways?.mpr ⟨_, _, hways, List.mem_singleton.mpr rfl⟩) heps hcall hpass hpath⟩

/-- An element that matches the empty text has a transition that may always be taken. -/
theorem Placed.empty {e : Element} {part : Handle} {made : List Made}
    (h : Placed network scope e part made) (hempty : Dialect.Empty e) :
    ∃ t, network.ways? part.left = some (false, [t]) ∧ t.isEpsilon = true ∧ t.isCall = false ∧
      t.target = part.right ∧ ∀ passes entry, Passes passes entry t := by
  cases h with
  | leaf hleaf hways =>
      cases hleaf with
      | action | predicate | command | epsilon =>
          exact ⟨_, hways, rfl, rfl, rfl, fun _ _ => trivial⟩
      | precedence hsome =>
          cases hempty with
          | predicate hnone => cases hnone.symm.trans hsome
      | reads ht => cases hempty <;> cases ht
      | call hcalls => cases hempty <;> cases hcalls
      | missing hcalls => cases hempty <;> cases hcalls
  | _ => cases hempty

/-- A predicate about a precedence has a transition that demands it. -/
theorem Placed.precedence {code : Snippet} {part : Handle} {made : List Made}
    (h : Placed network scope (.predicate code) part made) {demanded : Int}
    (hdemanded : precedenceIn? code.options = some demanded) :
    network.ways? part.left = some (false, [.precedence part.right demanded]) := by
  cases h with
  | leaf hleaf hways =>
      cases hleaf with
      | precedence hsome =>
          obtain rfl := Option.some.inj (hdemanded.symm.trans hsome)
          exact hways
      | predicate _ hnone => cases hdemanded.symm.trans hnone
      | reads ht => cases ht
      | call hcalls => cases hcalls
      | missing hcalls => cases hcalls

/-- An alternative of a rule is threaded through the rule. -/
theorem Housed.threads {definition : RuleDef} {made : List Made}
    (h : Housed network scope definition made) {alt : Alt} (halt : alt ∈ definition.alts) :
    ∃ start stop : Nat, network.ruleStarts[scope.rule]? = some start ∧
      network.ruleStops[scope.rule]? = some stop ∧ Threads network scope alt.elements start stop := by
  cases h with
  | mk hstart hstop hentry halts hchosen hexit =>
      obtain ⟨part, hpart, hthreads⟩ := threads_of_mem halts halt
      obtain ⟨hin, hout⟩ := hchosen.quiet part hpart
      have hquiet := hout.trans (quiet_only hexit)
      have hall := (hthreads.quiet ((quiet_only hentry).trans hin)).append (.nil hquiet)
      rw [List.append_nil] at hall
      exact ⟨_, _, hstart, hstop, hall⟩

/-- Whether a text is read on the way of a row that is threaded through a network. -/
def WayThrough (network : Network) (dialect : Dialect) (entry : Int) (row : List Element)
    (w : List Int) : Prop :=
  ∀ scope : Scope, scope.dialect dialect.passes = dialect → ∀ id goal : Nat,
    Threads network scope row id goal → Way network dialect.passes entry id w goal

namespace WayThrough

variable {entry : Int} {e : Element} {row : List Element} {u w : List Int}

theorem done : WayThrough network dialect entry [] [] := by
  intro scope _ id goal hthreads
  cases hthreads with
  | nil hquiet => exact hquiet.way ⟨0, .done ..⟩

/-- The way begins where the first element does. -/
theorem of_spans (h : ∀ {scope : Scope}, scope.dialect dialect.passes = dialect →
    ∀ {left right goal : Nat}, Spans network scope e left right →
      Threads network scope row right goal → Way network dialect.passes entry left w goal) :
    WayThrough network dialect entry (e :: row) w := by
  intro scope hscope id goal hthreads
  cases hthreads with
  | cons hquiet hspans hrest => exact hquiet.way (h hscope hspans hrest)

theorem symbol {n : Int} (h : network.Hosts dialect) (hmatches : dialect.Matches e n)
    (ih : WayThrough network dialect entry row w) :
    WayThrough network dialect entry (e :: row) (n :: w) := by
  refine of_spans fun {scope} hscope {left right goal} hspans hrest => ?_
  cases hspans with
  | part hplaced =>
      rw [← hscope] at hmatches
      obtain ⟨t, ht, hways⟩ := hplaced.reads hmatches
      have h' : network.Hosts (scope.dialect dialect.passes) := by rw [hscope]; exact h
      obtain ⟨htarget, -, hreads⟩ := h'.reads ht
      refine .read hways ((hreads _).mpr hmatches) ?_
      rw [htarget]
      exact ih scope hscope _ _ hrest
  | block => cases hmatches

theorem word {literal : Quotation} (hkind : dialect.kind = .lexer)
    (ih : WayThrough network dialect entry row w) :
    WayThrough network dialect entry (.quotation literal :: row)
      (literal.value.toList.map Symbol.ofChar ++ w) := by
  refine of_spans fun {scope} hscope {left right goal} hspans hrest => ?_
  have hlexer : scope.kind = .lexer := (congrArg Dialect.kind hscope).trans hkind
  cases hspans with
  | part hplaced =>
      cases hplaced with
      | leaf hleaf _ =>
          cases hleaf with
          | reads ht =>
              rw [reader?, if_pos hlexer] at ht
              cases ht
          | call hcalls => cases hcalls
          | missing hcalls => cases hcalls
      | word _ _ hspelt => exact (hspelt.way _ _).trans (ih scope hscope _ _ hrest)
      | noWord _ hnil hways =>
          rw [hnil]
          exact (quiet_only hways).way (ih scope hscope _ _ hrest)

theorem call {name : String} {precedence : Int} {definition : RuleDef} {alt : Alt}
    (h : network.Hosts dialect) (hcalls : Dialect.calls? dialect.kind e = some (name, precedence))
    (hdefines : dialect.Defines name definition) (halt : alt ∈ definition.alts)
    (ihbody : WayThrough network dialect precedence alt.elements u)
    (ih : WayThrough network dialect entry row w) :
    WayThrough network dialect entry (e :: row) (u ++ w) := by
  refine of_spans fun {scope} hscope {left right goal} hspans hrest => ?_
  obtain ⟨callee, hcallee, hdefinition⟩ := hdefines
  have hcallee' : scope.callee? name = some callee :=
    (congrArg (fun d => Dialect.rule? d name) hscope).trans hcallee
  have hcalls' : Dialect.calls? scope.kind e = some (name, precedence) :=
    (congrArg (fun d => Dialect.calls? (Dialect.kind d) e) hscope).trans hcalls
  obtain ⟨made, hhoused⟩ := h.housed callee (mem_rulesOf_of_rule? hcallee) _ hdefinition
  cases hspans with
  | part hplaced =>
      obtain ⟨start, hstart, hways⟩ := hplaced.calls hcalls' hcallee'
      obtain ⟨start', stop, hstart', hstop, hthreads⟩ := hhoused.threads halt
      obtain rfl := Option.some.inj (hstart.symm.trans hstart')
      obtain ⟨j, hbody⟩ := ihbody _ rfl _ _ hthreads
      obtain ⟨k, hgoal⟩ := ih scope hscope _ _ hrest
      exact ⟨_, .call (inner_iff_ways?.mpr ⟨_, _, hways, List.mem_singleton.mpr rfl⟩) hbody
        (h.stops _ _ hstop) hgoal⟩
  | block => cases hcalls

theorem empty (hempty : Dialect.Empty e) (ih : WayThrough network dialect entry row w) :
    WayThrough network dialect entry (e :: row) w := by
  refine of_spans fun {scope} hscope {left right goal} hspans hrest => ?_
  cases hspans with
  | part hplaced =>
      obtain ⟨t, hways, heps, hcall, htarget, hpass⟩ := hplaced.empty hempty
      refine .pass hways heps hcall (hpass _ _) ?_
      rw [htarget]
      exact ih scope hscope _ _ hrest
  | block => cases hempty

theorem precedence {code : Snippet} {demanded : Int}
    (hdemanded : precedenceIn? code.options = some demanded) (hpasses : dialect.passes entry demanded)
    (ih : WayThrough network dialect entry row w) :
    WayThrough network dialect entry (.predicate code :: row) w := by
  refine of_spans fun {scope} hscope {left right goal} hspans hrest => ?_
  cases hspans with
  | part hplaced =>
      have hways := hplaced.precedence hdemanded
      exact .pass hways rfl rfl hpasses (ih scope hscope _ _ hrest)

theorem labeled {isList : Bool} {label : String} {labelToken : Nat} {extent : Extent}
    (ih : WayThrough network dialect entry (e :: row) w) :
    WayThrough network dialect entry (.labeled isList label labelToken e extent :: row) w := by
  refine of_spans fun {scope} hscope {left right goal} hspans hrest => ?_
  cases hspans with
  | part hplaced =>
      cases hplaced with
      | leaf hleaf => exact absurd hleaf (by rintro ⟨⟩ <;> contradiction)
      | labeled hinner => exact ih scope hscope _ _ (.cons .refl (.part hinner) hrest)

theorem block {alts : List Alt} {options : Options} {extent : Extent} {alt : Alt} (halt : alt ∈ alts)
    (ih : WayThrough network dialect entry (alt.elements ++ row) w) :
    WayThrough network dialect entry (.block alts options extent :: row) w := by
  refine of_spans fun {scope} hscope {left right goal} hspans hrest => ?_
  refine ih scope hscope _ _ ?_
  cases hspans with
  | part hplaced =>
      cases hplaced with
      | leaf hleaf => exact absurd hleaf (by rintro ⟨⟩ <;> contradiction)
      | block halts hchosen =>
          obtain ⟨part, hpart, hthreads⟩ := threads_of_mem halts halt
          obtain ⟨hin, hout⟩ := hchosen.quiet part hpart
          exact (hthreads.quiet hin).append (hrest.quiet hout)
  | block halts hin hout =>
      obtain ⟨part, hpart, hthreads⟩ := threads_of_mem halts halt
      exact (hthreads.quiet (hin part hpart)).append (hrest.quiet (hout part hpart))

variable {suffix : Suffix} {greedy : Bool} {extent : Extent}

theorem skip (hsuffix : suffix ≠ .positiveClosure) (ih : WayThrough network dialect entry row w) :
    WayThrough network dialect entry (.suffixed suffix greedy e extent :: row) w := by
  refine of_spans fun {scope} hscope {left right goal} hspans hrest => ?_
  cases hspans with
  | part hplaced =>
      exact Quiet.way ((spans_inner hplaced).1 hsuffix) (ih scope hscope _ _ hrest)

theorem once (ih : WayThrough network dialect entry (e :: row) w) :
    WayThrough network dialect entry (.suffixed suffix greedy e extent :: row) w := by
  refine of_spans fun {scope} hscope {left right goal} hspans hrest => ?_
  cases hspans with
  | part hplaced =>
      obtain ⟨-, start, finish, hin, hout, hinner, -⟩ := spans_inner hplaced
      exact ih scope hscope _ _ (.cons hin hinner (hrest.quiet hout))

/-- Behind the element the way leads back to before it. -/
theorem again (hsuffix : suffix ≠ .optional)
    (ih : WayThrough network dialect entry (e :: .suffixed suffix greedy e extent :: row) w) :
    WayThrough network dialect entry (.suffixed suffix greedy e extent :: row) w := by
  refine of_spans fun {scope} hscope {left right goal} hspans hrest => ?_
  cases hspans with
  | part hplaced =>
      obtain ⟨-, start, finish, hin, -, hinner, hback⟩ := spans_inner hplaced
      exact ih scope hscope _ _ (.cons hin hinner (.cons (hback hsuffix) (.part hplaced) hrest))

end WayThrough

/-- A row of elements that is threaded through a network is read on the way. -/
theorem Hosts.way (h : network.Hosts dialect) {entry : Int} {row : List Element} {w : List Int}
    (hderives : dialect.Derives entry row w) : WayThrough network dialect entry row w := by
  induction hderives with
  | done => exact .done
  | symbol hmatches _ ih => exact .symbol h hmatches ih
  | word hkind _ ih => exact .word hkind ih
  | call hcalls hdefines halt _ _ ihbody ih => exact .call h hcalls hdefines halt ihbody ih
  | empty hempty _ ih => exact .empty hempty ih
  | precedence hdemanded hpasses _ ih => exact .precedence hdemanded hpasses ih
  | labeled _ ih => exact .labeled ih
  | block halt _ ih => exact .block halt ih
  | skip hsuffix _ ih => exact .skip hsuffix ih
  | once _ ih => exact .once ih
  | again hsuffix _ ih => exact .again hsuffix ih

/-! ## Paths become derivations -/

/-- Every path of at most `bound` transitions from one state on begins with a text of a row and
then goes on from the other state. -/
structure Splits (network : Network) (dialect : Dialect) (bound : Nat) (row : List Element)
    (left right : Nat) : Prop where
  split : ∀ {k : Nat} {entry : Int} {w : List Int} {goal : Nat}, k ≤ bound →
    network.IsStop goal → Path network dialect.passes k entry left w goal →
      ∃ u v k', w = u ++ v ∧ dialect.Derives entry row u ∧ k' ≤ k ∧
        Path network dialect.passes k' entry right v goal

/-- The rules that are called on a path are known to derive what is read in them. -/
def Known (network : Network) (dialect : Dialect) (bound : Nat) : Prop :=
  ∀ k < bound, ∀ (name : String) (callee : Rule) (definition : RuleDef) (start : Nat),
    dialect.rule? name = some callee → dialect.grammar.definition? callee = some definition →
    network.ruleStarts[callee.index]? = some start → ∀ (entry : Int) (w : List Int) (stop : Nat),
      network.IsStop stop → Path network dialect.passes k entry start w stop →
        dialect.DerivesRule definition entry w

section Splits

variable {bound : Nat} {row row' : List Element} {left mid right : Nat}

theorem Splits.nil (left : Nat) : Splits network dialect bound [] left left :=
  ⟨fun _ _ hpath => ⟨[], _, _, rfl, .done _, Nat.le_refl _, hpath⟩⟩

theorem Splits.append (h : Splits network dialect bound row left mid)
    (h' : Splits network dialect bound row' mid right) :
    Splits network dialect bound (row ++ row') left right := by
  refine ⟨fun {k entry w goal} hk hgoal hpath => ?_⟩
  obtain ⟨u, v, k', rfl, hderives, hle, hrest⟩ := h.split hk hgoal hpath
  obtain ⟨u', v', k'', rfl, hderives', hle', hrest'⟩ := h'.split (Nat.le_trans hle hk) hgoal hrest
  exact ⟨u ++ u', v', k'', (List.append_assoc ..).symm, hderives.append hderives',
    Nat.le_trans hle' hle, hrest'⟩

/-- One way on behind a row. -/
theorem Splits.only (h : Splits network dialect bound row left mid) {reluctant : Bool}
    (hways : network.ways? mid = some (reluctant, [.epsilon right])) :
    Splits network dialect bound row left right := by
  refine ⟨fun {k entry w goal} hk hgoal hpath => ?_⟩
  obtain ⟨u, v, k', rfl, hderives, hle, hrest⟩ := h.split hk hgoal hpath
  obtain ⟨k'', hlt, hrest'⟩ := hrest.only hgoal hways
  exact ⟨u, v, k'', rfl, hderives, Nat.le_trans (Nat.le_of_lt hlt) hle, hrest'⟩

/-- One way on before a row. -/
theorem Splits.behind (h : Splits network dialect bound row mid right) {reluctant : Bool}
    (hways : network.ways? left = some (reluctant, [.epsilon mid])) :
    Splits network dialect bound row left right := by
  refine ⟨fun {k entry w goal} hk hgoal hpath => ?_⟩
  obtain ⟨k', hlt, hrest⟩ := hpath.only hgoal hways
  obtain ⟨u, v, k'', rfl, hderives, hle, hrest'⟩ := h.split (by omega) hgoal hrest
  exact ⟨u, v, k'', rfl, hderives, by omega, hrest'⟩

theorem Splits.mono (h : Splits network dialect bound row left right)
    (hrow : ∀ entry w, dialect.Derives entry row w → dialect.Derives entry row' w) :
    Splits network dialect bound row' left right := by
  refine ⟨fun {k entry w goal} hk hgoal hpath => ?_⟩
  obtain ⟨u, v, k', rfl, hderives, hle, hrest⟩ := h.split hk hgoal hpath
  exact ⟨u, v, k', rfl, hrow _ _ hderives, hle, hrest⟩

/-- A state with one transition that reads nothing and calls no rule. -/
theorem splits_pass {e : Element} {t : Transition}
    (hways : network.ways? left = some (false, [t])) (htarget : t.target = right)
    (heps : t.isEpsilon = true) (hcall : t.isCall = false)
    (hderives : ∀ entry, Passes dialect.passes entry t → dialect.Derives entry [e] []) :
    Splits network dialect bound [e] left right := by
  refine ⟨fun {k entry w goal} hk hgoal hpath => ?_⟩
  obtain ⟨t', ht', hfirst⟩ := hpath.first hgoal hways
  obtain rfl := List.mem_singleton.mp ht'
  cases hfirst with
  | pass _ _ hpass hrest =>
      rw [htarget] at hrest
      exact ⟨[], w, _, rfl, hderives entry hpass, Nat.le_succ _, hrest⟩
  | read hreads => cases heps.symm.trans (isEpsilon_of_reads hreads)
  | call => cases hcall

theorem splits_read {e : Element} {t : Transition}
    (hways : network.ways? left = some (false, [t])) (htarget : t.target = right)
    (heps : t.isEpsilon = false) (hreads : ∀ n, network.Reads t n → dialect.Matches e n) :
    Splits network dialect bound [e] left right := by
  refine ⟨fun {k entry w goal} hk hgoal hpath => ?_⟩
  obtain ⟨t', ht', hfirst⟩ := hpath.first hgoal hways
  obtain rfl := List.mem_singleton.mp ht'
  cases hfirst with
  | pass heps' => cases heps.symm.trans heps'
  | @read k' t' n w' hn hrest =>
      rw [htarget] at hrest
      exact ⟨[n], w', k', rfl, .symbol (hreads n hn) (.done _), Nat.le_succ _, hrest⟩
  | call => cases heps

theorem splits_call (hknown : Known network dialect bound) {e : Element} {name : String}
    {precedence : Int} (hcalls : Dialect.calls? dialect.kind e = some (name, precedence))
    {callee : Rule} (hcallee : dialect.rule? name = some callee) {definition : RuleDef}
    (hdefinition : dialect.grammar.definition? callee = some definition) {start : Nat}
    (hstart : network.ruleStarts[callee.index]? = some start)
    (hways : network.ways? left = some (false, [.rule start callee.index precedence right])) :
    Splits network dialect bound [e] left right := by
  refine ⟨fun {k entry w goal} hk hgoal hpath => ?_⟩
  obtain ⟨t, ht, hfirst⟩ := hpath.first hgoal hways
  obtain rfl := List.mem_singleton.mp ht
  cases hfirst with
  | pass _ hcall => cases hcall
  | read hreads => cases hreads
  | @call j k _ _ _ stop _ u v hbody hstop hrest =>
      obtain ⟨alt, halt, hderives⟩ := hknown j (by omega) name callee definition start hcallee
        hdefinition hstart precedence u stop hstop hbody
      have hcall : dialect.Derives entry [e] (u ++ []) :=
        .call hcalls ⟨callee, hcallee, hdefinition⟩ halt hderives (.done _)
      rw [List.append_nil] at hcall
      exact ⟨u, v, k, rfl, hcall, by omega, hrest⟩

/-- The characters of a word are read one by one. -/
theorem Spelt.path {id finish k goal : Nat} {cs : List Char} (h : Spelt network id cs finish)
    {passes : Int → Int → Prop} {entry : Int} {w : List Int} (hgoal : network.IsStop goal)
    (hpath : Path network passes k entry id w goal) :
    ∃ v k', w = cs.map Symbol.ofChar ++ v ∧ k' ≤ k ∧ Path network passes k' entry finish v goal := by
  induction h generalizing k w with
  | nil => exact ⟨w, k, rfl, Nat.le_refl _, hpath⟩
  | @cons id next finish c cs hways _ ih =>
      obtain ⟨t, ht, hfirst⟩ := hpath.first hgoal hways
      obtain rfl := List.mem_singleton.mp ht
      cases hfirst with
      | pass heps => cases heps
      | read hreads hrest =>
          obtain ⟨v, k', rfl, hle, hfinish⟩ := ih hrest
          obtain rfl := hreads
          exact ⟨v, k', rfl, by omega, hfinish⟩

/-- The choice between parts: a path goes through one of them. -/
theorem splits_parts {parts : List Handle} {e : Element}
    (h : ∀ p ∈ parts, Splits network dialect bound [e] p.left p.right) {finish : Nat}
    (hrights : ∀ p ∈ parts, network.ways? p.right = some (false, [.epsilon finish]))
    {t : Transition} (ht : t ∈ toParts parts) {k : Nat} {entry : Int} {w : List Int} {goal : Nat}
    (hk : k ≤ bound) (hgoal : network.IsStop goal)
    (hfirst : Along network dialect.passes entry goal k t w) :
    ∃ u v k', w = u ++ v ∧ dialect.Derives entry [e] u ∧ k' < k ∧
      Path network dialect.passes k' entry finish v goal := by
  obtain ⟨p, hp, rfl⟩ := List.mem_map.mp ht
  obtain ⟨k', hlt, hrest⟩ := hfirst.epsilon
  obtain ⟨u, v, k'', rfl, hderives, hle, hrest'⟩ :=
    (Splits.only (h p hp) (hrights p hp)).split (Nat.le_trans (Nat.le_of_lt hlt) hk) hgoal hrest
  exact ⟨u, v, k'', rfl, hderives, Nat.lt_of_le_of_lt hle hlt, hrest'⟩

theorem Chosen.splits {token : Nat} {site : DecisionSite} {parts : List Handle} {whole : Handle}
    {made : List Made} (h : Chosen network token site parts whole made) {e : Element}
    (hparts : ∀ p ∈ parts, Splits network dialect bound [e] p.left p.right) :
    Splits network dialect bound [e] whole.left whole.right := by
  cases h with
  | alone => exact hparts _ (List.mem_singleton.mpr rfl)
  | among _ hleft hrights =>
      refine ⟨fun {k entry w goal} hk hgoal hpath => ?_⟩
      obtain ⟨t, ht, hfirst⟩ := hpath.first hgoal hleft
      obtain ⟨u, v, k', rfl, hderives, hlt, hrest⟩ := splits_parts hparts hrights ht hk hgoal hfirst
      exact ⟨u, v, k', rfl, hderives, Nat.le_of_lt hlt, hrest⟩

theorem Under.splits {token first : Nat} {greedy : Bool} {suffix : Suffix} {parts : List Handle}
    {whole : Handle} {made : List Made} (h : Under network token first greedy suffix parts whole made)
    {inner : Element} (extent : Extent)
    (hparts : ∀ p ∈ parts, Splits network dialect bound [inner] p.left p.right) :
    Splits network dialect bound [.suffixed suffix greedy inner extent] whole.left whole.right := by
  cases h with
  | optional hleft hrights =>
      refine ⟨fun {k entry w goal} hk hgoal hpath => ?_⟩
      obtain ⟨t, ht, hfirst⟩ := hpath.first hgoal hleft
      rcases mem_toOptional.mp ht with ht | rfl
      · obtain ⟨u, v, k', rfl, hderives, hlt, hrest⟩ :=
          splits_parts hparts hrights ht hk hgoal hfirst
        exact ⟨u, v, k', rfl, .once hderives, Nat.le_of_lt hlt, hrest⟩
      · obtain ⟨k', hlt, hrest⟩ := hfirst.epsilon
        exact ⟨[], w, k', rfl, .skip (by decide) (.done _), Nat.le_of_lt hlt, hrest⟩
  | star hstart hrights hinner hback hentry =>
      refine ⟨fun {k} => ?_⟩
      induction k using Nat.strong_induction_on with
      | _ k ih =>
          intro entry w goal hk hgoal hpath
          obtain ⟨t, ht, hfirst⟩ := hpath.first hgoal hentry
          obtain ⟨k1, hk1, hnext⟩ : ∃ k' < k, Path network dialect.passes k' entry t.target w goal := by
            rcases mem_toRound.mp ht with rfl | rfl <;> exact hfirst.epsilon
          rcases mem_toRound.mp ht with rfl | rfl
          · obtain ⟨t, ht, hfirst⟩ := hnext.first hgoal hstart
            obtain ⟨u, v, k2, rfl, hderives, hlt, hrest⟩ :=
              splits_parts hparts hrights ht (by omega) hgoal hfirst
            obtain ⟨k3, hlt3, hrest⟩ := hrest.only hgoal hinner
            obtain ⟨k4, hlt4, hrest⟩ := hrest.only hgoal hback
            obtain ⟨u', v', k5, rfl, hderives', hle, hrest'⟩ :=
              ih k4 (by omega) (by omega) hgoal hrest
            exact ⟨u ++ u', v', k5, (List.append_assoc ..).symm,
              .again (by decide) (hderives.append hderives'), by omega, hrest'⟩
          · exact ⟨[], w, k1, rfl, .skip (by decide) (.done _), Nat.le_of_lt hk1, hnext⟩
  | plus hstart hrights hinner hback =>
      refine ⟨fun {k} => ?_⟩
      induction k using Nat.strong_induction_on with
      | _ k ih =>
          intro entry w goal hk hgoal hpath
          obtain ⟨t, ht, hfirst⟩ := hpath.first hgoal hstart
          obtain ⟨u, v, k1, rfl, hderives, hlt, hrest⟩ :=
            splits_parts hparts hrights ht hk hgoal hfirst
          obtain ⟨k2, hlt2, hrest⟩ := hrest.only hgoal hinner
          obtain ⟨t, ht, hfirst⟩ := hrest.first hgoal hback
          rcases mem_toRound.mp ht with rfl | rfl
          · obtain ⟨k3, hlt3, hrest⟩ := hfirst.epsilon
            obtain ⟨u', v', k4, rfl, hderives', hle, hrest'⟩ :=
              ih k3 (by omega) (by omega) hgoal hrest
            exact ⟨u ++ u', v', k4, (List.append_assoc ..).symm,
              .again (by decide) (hderives.append hderives'), by omega, hrest'⟩
          · obtain ⟨k3, hlt3, hrest⟩ := hfirst.epsilon
            exact ⟨u, v, k3, rfl, .once hderives, by omega, hrest⟩

theorem Joined.splits {parts : List Handle} {whole : Handle} (h : Joined network parts whole)
    (hrow : List.Forall₂ (fun e p => Splits network dialect bound [e] p.left p.right) row parts) :
    Splits network dialect bound row whole.left whole.right := by
  induction h generalizing row with
  | nothing hways =>
      cases hrow with
      | nil => exact Splits.behind (Splits.nil _) hways
  | last =>
      obtain ⟨e, rest, hfirst, hrest, rfl⟩ := List.forall₂_cons_right_iff.mp hrow
      cases hrest with
      | nil => exact hfirst
  | cons hways hjoined ih =>
      obtain ⟨e, rest, hfirst, hrest, rfl⟩ := List.forall₂_cons_right_iff.mp hrow
      have hbehind := ih hrest
      rw [hjoined.left_eq] at hbehind
      exact Splits.append (Splits.only hfirst hways) hbehind

/-- What is inside an element that has its place, and the alternatives of it if it is a block. -/
structure SplitsBoth (network : Network) (dialect : Dialect) (scope : Scope) (bound : Nat)
    (e : Element) : Prop where
  part : ∀ {part : Handle} {made : List Made}, Placed network scope e part made →
    Splits network dialect bound [e] part.left part.right
  alts : ∀ {alts : List Alt} {options : Options} {extent : Extent},
    e = .block alts options extent → ∀ {parts : List Handle} {made : List Made},
      PlacedAlts network scope alts parts made →
        ∀ p ∈ parts, Splits network dialect bound [e] p.left p.right

theorem SplitsBoth.under {suffix : Suffix} {greedy : Bool} {inner : Element} {extent : Extent}
    (h : SplitsBoth network dialect scope bound inner) {part : Handle} {made : List Made}
    (hplaced : Placed network scope (.suffixed suffix greedy inner extent) part made) :
    Splits network dialect bound [.suffixed suffix greedy inner extent] part.left part.right := by
  cases hplaced with
  | leaf hleaf _ => exact absurd hleaf (by rintro ⟨⟩ <;> contradiction)
  | blockUnder halts hunder => exact hunder.splits extent (h.alts rfl halts)
  | under _ hplaced hunder =>
      refine hunder.splits extent fun p hp => ?_
      rw [List.mem_singleton.mp hp]
      exact h.part hplaced

/-- An element without parts. -/
theorem splits_leaf (h : network.Hosts dialect) (hscope : scope.dialect dialect.passes = dialect)
    {bound : Nat} (hknown : Known network dialect bound) {e : Element}
    (hresolves : dialect.Resolves e) {part : Handle} {t : Transition}
    (hleaf : Leaf network scope part.right e t)
    (hways : network.ways? part.left = some (false, [t])) :
    Splits network dialect bound [e] part.left part.right := by
  cases hleaf with
  | reads ht =>
      have h' : network.Hosts (scope.dialect dialect.passes) := by rw [hscope]; exact h
      obtain ⟨htarget, heps, hreads⟩ := h'.reads ht
      rw [hscope] at hreads
      exact splits_read hways htarget heps fun n => (hreads n).mp
  | call hcalls hcallee hstart =>
      have hcalls : Dialect.calls? dialect.kind e = some _ :=
        (congrArg (fun d => Dialect.calls? (Dialect.kind d) e) hscope).symm.trans hcalls
      have hcallee : dialect.rule? _ = some _ :=
        (congrArg (fun d => Dialect.rule? d _) hscope).symm.trans hcallee
      obtain ⟨definition, callee, hcallee', hdefinition⟩ := hresolves _ _ hcalls
      obtain rfl := Option.some.inj (hcallee.symm.trans hcallee')
      exact splits_call hknown hcalls hcallee hdefinition hstart hways
  | missing hcalls hnone =>
      have hcalls : Dialect.calls? dialect.kind e = some _ :=
        (congrArg (fun d => Dialect.calls? (Dialect.kind d) e) hscope).symm.trans hcalls
      have hnone : dialect.rule? _ = none :=
        (congrArg (fun d => Dialect.rule? d _) hscope).symm.trans hnone
      obtain ⟨_, _, hcallee, -⟩ := hresolves _ _ hcalls
      cases hnone.symm.trans hcallee
  | action code index =>
      exact splits_pass hways rfl rfl rfl fun _ _ => .empty (.action code) (.done _)
  | predicate index hnone =>
      exact splits_pass hways rfl rfl rfl fun _ _ => .empty (.predicate hnone) (.done _)
  | precedence hdemanded =>
      exact splits_pass hways rfl rfl rfl fun _ hpass => .precedence hdemanded hpass (.done _)
  | command name arg extent =>
      exact splits_pass hways rfl rfl rfl fun _ _ => .empty (.command name arg extent) (.done _)
  | epsilon extent =>
      exact splits_pass hways rfl rfl rfl fun _ _ => .empty (.epsilon extent) (.done _)

/-- A literal that a lexer reads character by character. -/
theorem splits_word {bound : Nat} (hkind : dialect.kind = .lexer) {literal : Quotation}
    {left right : Nat} (h : Spelt network left literal.value.toList right) :
    Splits network dialect bound [.quotation literal] left right := by
  refine ⟨fun {k entry w goal} _ hgoal hpath => ?_⟩
  obtain ⟨v, k', rfl, hle, hrest⟩ := h.path hgoal hpath
  have hword : dialect.Derives entry [.quotation literal] (_ ++ []) := .word hkind (.done _)
  rw [List.append_nil] at hword
  exact ⟨_, v, k', rfl, hword, hle, hrest⟩

/-- A literal without characters. -/
theorem splits_noWord {bound : Nat} (hkind : dialect.kind = .lexer) {literal : Quotation}
    (hnil : literal.value.toList = []) {left right : Nat}
    (hways : network.ways? left = some (false, [.epsilon right])) :
    Splits network dialect bound [.quotation literal] left right := by
  refine splits_pass hways rfl rfl rfl fun entry _ => ?_
  have hword : dialect.Derives entry [.quotation literal] (_ ++ []) := .word hkind (.done _)
  rw [hnil] at hword
  exact hword

mutual
/-- Paths through an element read texts of the element. -/
theorem splits_element (h : network.Hosts dialect)
    (hscope : scope.dialect dialect.passes = dialect) {bound : Nat}
    (hknown : Known network dialect bound) :
    ∀ e : Element, (∀ node ∈ e.nodes, dialect.Resolves node) →
      SplitsBoth network dialect scope bound e
  | .block alts options extent, hresolves => by
      have halts := @splits_alts h hscope bound hknown alts fun node hnode =>
        hresolves node (List.mem_cons_of_mem _ hnode)
      have hall : ∀ {parts : List Handle} {made : List Made},
          PlacedAlts network scope alts parts made → ∀ p ∈ parts,
            Splits network dialect bound [.block alts options extent] p.left p.right := by
        intro parts made hplaced p hp
        obtain ⟨alt, halt, hsplits⟩ := halts hplaced p hp
        refine Splits.mono hsplits fun entry w hderives => .block halt ?_
        rw [List.append_nil]
        exact hderives
      refine ⟨fun hplaced => ?_, fun heq => by cases heq; exact hall⟩
      cases hplaced with
      | leaf hleaf hways => exact absurd hleaf (by rintro ⟨⟩ <;> contradiction)
      | block hplaced hchosen => exact hchosen.splits (hall hplaced)
  | .suffixed suffix greedy inner extent, hresolves => by
      have hinner := splits_element h hscope hknown inner fun node hnode =>
        hresolves node (List.mem_cons_of_mem _ hnode)
      exact ⟨hinner.under, nofun⟩
  | .labeled isList label labelToken inner extent, hresolves => by
      have hinner := splits_element h hscope hknown inner fun node hnode =>
        hresolves node (List.mem_cons_of_mem _ hnode)
      refine ⟨fun hplaced => ?_, nofun⟩
      cases hplaced with
      | leaf hleaf hways => exact absurd hleaf (by rintro ⟨⟩ <;> contradiction)
      | labeled hplaced => exact Splits.mono (hinner.part hplaced) fun _ _ => .labeled
  | .quotation literal, hresolves => by
      refine ⟨fun hplaced => ?_, nofun⟩
      have hkind : ∀ kind, scope.kind = kind → dialect.kind = kind := fun kind hk =>
        (congrArg Dialect.kind hscope).symm.trans hk
      cases hplaced with
      | leaf hleaf hways =>
          exact splits_leaf h hscope hknown (hresolves _ (List.mem_cons_self ..)) hleaf hways
      | word hlexer _ hspelt => exact splits_word (hkind _ hlexer) hspelt
      | noWord hlexer hnil hways => exact splits_noWord (hkind _ hlexer) hnil hways
  | .ruleRef _, hresolves | .tokenRef _ _ _, hresolves | .range _ _ _, hresolves
  | .wildcard _ _, hresolves | .not _ _, hresolves | .set _ _, hresolves | .action _, hresolves
  | .predicate _, hresolves | .command _ _ _, hresolves | .epsilon _, hresolves => by
      refine ⟨fun hplaced => ?_, nofun⟩
      cases hplaced with
      | leaf hleaf hways =>
          exact splits_leaf h hscope hknown (hresolves _ (List.mem_cons_self ..)) hleaf hways

theorem splits_row (h : network.Hosts dialect)
    (hscope : scope.dialect dialect.passes = dialect) {bound : Nat}
    (hknown : Known network dialect bound) :
    ∀ es : List Element, (∀ node ∈ Element.listNodes es, dialect.Resolves node) →
      ∀ {parts : List Handle} {made : List Made}, PlacedRow network scope es parts made →
        List.Forall₂ (fun e p => Splits network dialect bound [e] p.left p.right) es parts
  | [], _, _, _, hplaced => by
      cases hplaced with
      | nil => exact .nil
  | e :: es, hresolves, _, _, hplaced => by
      cases hplaced with
      | cons hpart hrest =>
          refine .cons ((splits_element h hscope hknown e fun node hnode => ?_).part hpart)
            (splits_row h hscope hknown es (fun node hnode => ?_) hrest)
          · exact hresolves node (List.mem_append_left _ hnode)
          · exact hresolves node (List.mem_append_right _ hnode)

theorem splits_alts (h : network.Hosts dialect)
    (hscope : scope.dialect dialect.passes = dialect) {bound : Nat}
    (hknown : Known network dialect bound) :
    ∀ alts : List Alt, (∀ node ∈ Alt.listNodes alts, dialect.Resolves node) →
      ∀ {parts : List Handle} {made : List Made}, PlacedAlts network scope alts parts made →
        ∀ p ∈ parts, ∃ alt ∈ alts, Splits network dialect bound alt.elements p.left p.right
  | [], _, _, _, hplaced, p, hp => by
      cases hplaced with
      | nil => cases hp
  | ⟨elements, options, label, extent, info⟩ :: alts, hresolves, _, _, hplaced, p, hp => by
      cases hplaced with
      | cons hrow hjoined hrest =>
          rcases List.mem_cons.mp hp with rfl | hp
          · refine ⟨_, List.mem_cons_self .., hjoined.splits
              (splits_row h hscope hknown elements (fun node hnode => ?_) hrow)⟩
            exact hresolves node (List.mem_append_left _ hnode)
          · obtain ⟨alt, halt, hsplits⟩ := splits_alts h hscope hknown alts
              (fun node hnode => hresolves node (List.mem_append_right _ hnode)) hrest p hp
            exact ⟨alt, List.mem_cons_of_mem _ halt, hsplits⟩
end

end Splits

/-! ## Rules -/

/-- Every reference in a rule of the kind that is read names a rule of this kind. -/
def AllResolve (dialect : Dialect) : Prop :=
  ∀ rule ∈ rulesOf dialect.grammar dialect.kind, ∀ definition,
    dialect.grammar.definition? rule = some definition →
      ∀ node ∈ definition.nodes, dialect.Resolves node

instance (dialect : Dialect) : Decidable (AllResolve dialect) :=
  decidable_of_iff
    (∀ rule ∈ rulesOf dialect.grammar dialect.kind,
      ∀ definition ∈ (dialect.grammar.definition? rule).toList,
        ∀ node ∈ definition.nodes, dialect.Resolves node) (by
    unfold AllResolve
    simp only [Option.mem_toList])

/-- A path through a rule reads a text of the rule. -/
theorem Hosts.derivesRule (h : network.Hosts dialect) {bound : Nat}
    (hknown : Known network dialect bound) {definition : RuleDef}
    (hresolves : ∀ node ∈ definition.nodes, dialect.Resolves node)
    (hscope : scope.dialect dialect.passes = dialect) {made : List Made}
    (hhoused : Housed network scope definition made) {start : Nat}
    (hstart : network.ruleStarts[scope.rule]? = some start) {k : Nat} (hk : k ≤ bound) {entry : Int}
    {w : List Int} {stop : Nat} (hstop : network.IsStop stop)
    (hpath : Path network dialect.passes k entry start w stop) :
    dialect.DerivesRule definition entry w := by
  cases hhoused with
  | @mk start' stop' body parts _ _ hstart' hstop' hentry halts hchosen hexit =>
      obtain rfl := Option.some.inj (hstart.symm.trans hstart')
      have hparts := splits_alts h hscope hknown definition.alts hresolves halts
      -- the rule is a block of its alternatives
      have hblock : Splits network dialect bound [.block definition.alts .none definition.extent]
          body.left body.right := hchosen.splits fun p hp => by
        obtain ⟨alt, halt, hsplits⟩ := hparts p hp
        refine hsplits.mono fun entry w hderives => .block halt ?_
        rw [List.append_nil]
        exact hderives
      obtain ⟨u, v, k', rfl, hderives, -, hrest⟩ :=
        ((hblock.only hexit).behind hentry).split hk hstop hpath
      obtain ⟨rfl, -⟩ := hrest.eq_of_isStop (h.stops _ _ hstop')
      rw [List.append_nil]
      cases hderives with
      | symbol hmatches => cases hmatches
      | call hcalls => cases hcalls
      | empty hempty => cases hempty
      | block halt hderives =>
          rw [List.append_nil] at hderives
          exact ⟨_, halt, hderives⟩

theorem Hosts.known (h : network.Hosts dialect) (hresolves : AllResolve dialect) (bound : Nat) :
    Known network dialect bound := by
  induction bound with
  | zero => exact fun k hk => absurd hk (Nat.not_lt_zero k)
  | succ bound ih =>
      intro k hk name callee definition start hcallee hdefinition hstart entry w stop hstop hpath
      have hmem := mem_rulesOf_of_rule? hcallee
      obtain ⟨made, hhoused⟩ := h.housed callee hmem definition hdefinition
      exact h.derivesRule ih (hresolves callee hmem definition hdefinition) rfl hhoused hstart
        (Nat.le_of_lt_succ hk) hstop hpath

/-- The runs through a rule read what the rule derives. -/
theorem Hosts.runs_iff (h : network.Hosts dialect) (hresolves : AllResolve dialect) {rule : Rule}
    (hrule : rule ∈ rulesOf dialect.grammar dialect.kind) {definition : RuleDef}
    (hdefinition : dialect.grammar.definition? rule = some definition) :
    ∃ start stop : Nat, network.ruleStarts[rule.index]? = some start ∧
      network.ruleStops[rule.index]? = some stop ∧ ∀ entry w,
        Runs network dialect.passes ⟨start, entry, []⟩ w ⟨stop, entry, []⟩ ↔
          dialect.DerivesRule definition entry w := by
  obtain ⟨made, hhoused⟩ := h.housed rule hrule definition hdefinition
  obtain ⟨start, stop, hstart, hstop⟩ : ∃ start stop : Nat,
      network.ruleStarts[rule.index]? = some start ∧ network.ruleStops[rule.index]? = some stop := by
    cases hhoused with
    | mk hstart hstop => exact ⟨_, _, hstart, hstop⟩
  refine ⟨start, stop, hstart, hstop, fun entry w => ?_⟩
  rw [runs_iff_path]
  constructor
  · rintro ⟨-, k, hpath⟩
    exact h.derivesRule (h.known hresolves k) (hresolves rule hrule definition hdefinition) rfl
      hhoused hstart (Nat.le_refl k) (h.stops _ _ hstop) hpath
  · rintro ⟨alt, halt, hderives⟩
    obtain ⟨start', stop', hstart', hstop', hthreads⟩ := hhoused.threads halt
    obtain rfl := Option.some.inj (hstart.symm.trans hstart')
    obtain rfl := Option.some.inj (hstop.symm.trans hstop')
    exact ⟨rfl, h.way hderives _ rfl _ _ hthreads⟩

end Language

/-- A network accepts from the start of a rule to its end just what the rule derives, if the rules
that are called there are. All predicates pass. -/
theorem runs_exact {grammar : Grammar} (hg : grammar.Built) {vocabulary : Vocabulary}
    (hv : vocabulary.Fits) (kind : NetworkKind) {dialect : Dialect}
    (hdialect : dialect = ⟨grammar, vocabulary, kind, fun _ _ => True⟩)
    (hresolves : AllResolve dialect) {rule : Rule} (hrule : rule ∈ rulesOf grammar kind) :
    ∃ definition, grammar.definition? rule = some definition ∧ ∃ start stop : Nat,
      (ofGrammar grammar vocabulary kind).ruleStarts[rule.index]? = some start ∧
      (ofGrammar grammar vocabulary kind).ruleStops[rule.index]? = some stop ∧ ∀ entry w,
        dialect.DerivesRule definition entry w ↔
          Runs (ofGrammar grammar vocabulary kind) dialect.passes ⟨start, entry, []⟩ w
            ⟨stop, entry, []⟩ := by
  subst hdialect
  have hsteady := hg.steady
  have hmem : rule ∈ grammar.rules := by
    cases kind with
    | lexer => exact List.mem_of_mem_filter hrule
    | parser => exact List.mem_of_mem_filter hrule
  obtain ⟨definition, hdefinition⟩ := hsteady.definition hmem
  obtain ⟨start, stop, hstart, hstop, hruns⟩ :=
    (hosts_ofGrammar hsteady.numbered hv kind fun _ _ => True).runs_iff hresolves hrule hdefinition
  exact ⟨definition, hdefinition, start, stop, hstart, hstop, fun entry w => (hruns entry w).symm⟩

/-- A rule of a parser and a rule of a lexer, with loops of both kinds and rules inside rules. -/
theorem runs_exact_loops :
    ∃ (grammar : Grammar) (report : Report),
      Grammar.gather .empty "T.g"
        "grammar T; s : (A | 'c' s)* B? \x7bx\x7d | ; A : 'a' ~'x' B ; B : ('b' | 'd')+? ;" =
          (some grammar, report) ∧
      ∀ kind : NetworkKind, ∃ rule ∈ rulesOf grammar kind, ∃ definition,
        grammar.definition? rule = some definition ∧ ∃ start stop : Nat, ∀ entry w,
          let vocabulary := (Vocabulary.ofGrammar grammar).1
          let dialect : Dialect := ⟨grammar, vocabulary, kind, fun _ _ => True⟩
          dialect.DerivesRule definition entry w ↔
            Runs (ofGrammar grammar vocabulary kind) dialect.passes ⟨start, entry, []⟩ w
              ⟨stop, entry, []⟩ := by
  have hgood :
      (Grammar.gather .empty "T.g"
        "grammar T; s : (A | 'c' s)* B? \x7bx\x7d | ; A : 'a' ~'x' B ; B : ('b' | 'd')+? ;").1.any
        fun grammar =>
          let vocabulary := (Vocabulary.ofGrammar grammar).1
          vocabulary.nextType ≤ Text.maxInt32 &&
            [NetworkKind.lexer, NetworkKind.parser].all fun kind =>
              AllResolve ⟨grammar, vocabulary, kind, fun _ _ => True⟩ &&
                !(rulesOf grammar kind).isEmpty := by
    decide +kernel
  obtain ⟨grammar, hgrammar, hgood⟩ := (Option.any_eq_true _ _).mp hgood
  obtain ⟨hsize, hkinds⟩ := (Bool.and_eq_true _ _).mp hgood
  refine ⟨grammar, _, Prod.ext hgrammar rfl, fun kind => ?_⟩
  obtain ⟨hresolves, hsome⟩ := (Bool.and_eq_true _ _).mp
    (List.all_eq_true.mp hkinds kind (by cases kind <;> decide))
  obtain ⟨rule, hrule⟩ : ∃ rule, rule ∈ rulesOf grammar kind :=
    List.exists_mem_of_ne_nil _ (by simpa using hsome)
  have hfits := ((Vocabulary.below_ofGrammar grammar).fits (of_decide_eq_true hsize)).1
  obtain ⟨definition, hdefinition, start, stop, -, -, hruns⟩ :=
    runs_exact (.gathered (Prod.ext hgrammar rfl)) hfits kind rfl (of_decide_eq_true hresolves)
      hrule
  exact ⟨rule, hrule, definition, hdefinition, start, stop, hruns⟩

end Network

end GrammarCompiler
