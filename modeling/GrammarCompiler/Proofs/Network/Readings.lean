import GrammarCompiler.Proofs.Network.Housing

/-!
# What a network reads

A network is built of states and links that read nothing, and of one transition, or one for each
character of a literal, for every element that reads or calls. They come in the order of the
elements (`readings_ofGrammar`): no construct around an element takes one away or adds another.

The elements that a negation or a set is made of are read together with it.
-/

namespace GrammarCompiler

/-! ## Elements that are read -/

mutual
/-- The elements without parts in an element, in order. What stands in a set or behind a negation is
part of that. -/
def Element.leaves : Element → List Element
  | .block alts _ _ => Alt.listLeaves alts
  | .suffixed _ _ inner _ => inner.leaves
  | .labeled _ _ _ inner _ => inner.leaves
  | e => [e]

/-- The elements without parts in a sequence of elements. -/
def Element.listLeaves : List Element → List Element
  | [] => []
  | e :: es => e.leaves ++ Element.listLeaves es

def Alt.leaves : Alt → List Element
  | ⟨elements, _, _, _, _⟩ => Element.listLeaves elements

def Alt.listLeaves : List Alt → List Element
  | [] => []
  | a :: as => a.leaves ++ Alt.listLeaves as
end

def RuleDef.leaves (rule : RuleDef) : List Element :=
  Alt.listLeaves rule.alts

/-- What a transition reads or calls, whatever it leads to. -/
def Transition.reading? : Transition → Option Transition
  | .atom _ label => some (.atom 0 label)
  | .range _ first last => some (.range 0 first last)
  | .set _ symbols => some (.set 0 symbols)
  | .notSet _ symbols => some (.notSet 0 symbols)
  | .wildcard _ => some (.wildcard 0)
  | .rule start callee demanded _ => some (.rule start callee demanded 0)
  | _ => none

namespace Network

/-- What the transitions of a network read or call, state by state. -/
def readings (network : Network) : List Transition :=
  network.transitions.filterMap Transition.reading?

/-- What is read or called for an element without parts. The rules begin at `starts`. -/
def Scope.readings (scope : Scope) (starts : Array Nat) (e : Element) : List Transition :=
  match reader? scope 0 e, Dialect.calls? scope.kind e, e with
  | some t, _, _ => [t]
  | none, some (name, precedence), _ =>
    (scope.callee? name).toList.map fun callee =>
      .rule ((starts[callee.index]?).getD 0) callee.index precedence 0
  | none, none, .quotation literal => literal.value.toList.map fun c => .atom 0 (Symbol.ofChar c)
  | none, none, _ => []

/-! ## Changes that read nothing -/

section Changes

variable (n : Network)

theorem readings_eq : n.readings =
    n.states.toList.flatMap fun s => s.transitions.filterMap Transition.reading? := by
  unfold readings transitions
  rw [List.filterMap_flatMap]

/-- Changing an entry of a list for one that counts as much. -/
theorem flatMap_modify {α β : Type} {g : α → List β} {f : α → α} (hf : ∀ a, g (f a) = g a)
    (xs : List α) (i : Nat) : (xs.modify i f).flatMap g = xs.flatMap g := by
  induction xs generalizing i with
  | nil => cases i <;> rfl
  | cons x xs ih =>
      cases i with
      | zero => rw [List.modify_zero_cons, List.flatMap_cons, List.flatMap_cons, hf]
      | succ i => rw [List.modify_succ_cons, List.flatMap_cons, List.flatMap_cons, ih]

theorem readings_modifyState (id : Nat) {f : State → State}
    (hf : ∀ s, (f s).transitions.filterMap Transition.reading? =
      s.transitions.filterMap Transition.reading?) : (n.modifyState id f).readings = n.readings := by
  rw [readings_eq, readings_eq]
  unfold modifyState
  rw [Array.toList_modify]
  exact flatMap_modify hf _ _

theorem readings_mark (id : Nat) {f : State → State} (hf : ∀ s, (f s).transitions = s.transitions) :
    (n.modifyState id f).readings = n.readings :=
  n.readings_modifyState id fun s => congrArg (List.filterMap Transition.reading?) (hf s)

@[simp]
theorem readings_addState (kind : StateKind) (rule : Nat) :
    (n.addState kind rule).readings = n.readings := by
  rw [readings_eq, readings_eq]
  unfold addState
  rw [Array.toList_push, List.flatMap_append]
  exact List.append_nil _

@[simp]
theorem readings_link (source target : Nat) : (n.link source target).readings = n.readings :=
  n.readings_modifyState source fun s => by
    rw [List.filterMap_append, List.filterMap_cons_none rfl, List.filterMap_nil, List.append_nil]

theorem readings_insertTransition (id index target : Nat) :
    (n.insertTransition id index (.epsilon target)).readings = n.readings := by
  refine n.readings_modifyState id fun s => ?_
  generalize s.transitions = ts
  dsimp only
  induction ts generalizing index with
  | nil =>
      cases index with
      | zero => rw [List.insertIdx_zero, List.filterMap_cons_none rfl]
      | succ index => rw [List.insertIdx_succ_nil]
  | cons t ts ih =>
      cases index with
      | zero => rw [List.insertIdx_zero, List.filterMap_cons_none rfl]
      | succ index => rw [List.insertIdx_succ_cons, List.filterMap_cons, List.filterMap_cons, ih]

@[simp]
theorem readings_decide (id token : Nat) (site : DecisionSite) :
    (n.decide id token site).readings = n.readings := by
  have hsite : ∀ (n : Network) (decision : Nat),
      (n.addSite token site decision).readings = n.readings := fun _ _ => rfl
  have hdecision : ∀ n : Network, (n.addDecision id).readings = n.readings := fun n =>
    readings_mark { n with decisions := n.decisions.push id } id fun _ => rfl
  unfold decide
  rw [hsite, hdecision, readings_mark]
  exact fun _ => rfl

@[simp]
theorem readings_decideAmong (id token : Nat) (site : DecisionSite) (parts : List Handle) :
    (n.decideAmong id token site parts).readings = n.readings := by
  unfold decideAmong
  split
  · exact n.readings_decide ..
  · rfl

@[simp]
theorem readings_chain (parts : List Handle) : (n.chain parts).readings = n.readings := by
  induction parts generalizing n with
  | nil => rfl
  | cons a rest ih =>
      cases rest with
      | nil => rfl
      | cons b rest => exact (ih _).trans (n.readings_link ..)

@[simp]
theorem readings_fan (start finish : Nat) (parts : List Handle) :
    (fan start finish n parts).readings = n.readings := by
  induction parts generalizing n with
  | nil => rfl
  | cons part parts ih =>
      unfold fan
      rw [ih, readings_link, readings_link]

@[simp]
theorem readings_block (rule start : Nat) (parts : List Handle) :
    (n.block rule start parts).readings = n.readings := by
  unfold block
  rw [readings_fan, readings_mark, readings_addState]
  exact fun _ => rfl

@[simp]
theorem readings_choice (rule token : Nat) (site : DecisionSite) (parts : List Handle) :
    (n.choice rule token site parts).readings = n.readings := by
  unfold choice
  rw [readings_block, readings_decide, readings_addState]

@[simp]
theorem readings_twoWays (id again finish : Nat) (greedy : Bool) :
    (n.twoWays id again finish greedy).readings = n.readings := by
  unfold twoWays
  split <;> rw [readings_link, readings_link]

theorem readings_optional (rule : Nat) (greedy : Bool) (token : Nat) (parts : List Handle) :
    (n.optional rule greedy token parts).readings = n.readings := by
  unfold optional
  dsimp only
  split
  · rw [readings_link, readings_mark, readings_choice]
    exact fun _ => rfl
  · rw [readings_insertTransition, readings_mark, readings_choice]
    exact fun _ => rfl

theorem readings_star (scope : Scope) (greedy : Bool) (token first : Nat) (parts : List Handle) :
    (n.star scope greedy token first parts).readings = n.readings := by
  unfold star starStates
  simp (disch := exact fun _ => rfl) only [readings_link, readings_twoWays, readings_mark,
    readings_addState, readings_decide, readings_block, readings_decideAmong]

theorem readings_plus (scope : Scope) (greedy : Bool) (token first : Nat) (parts : List Handle) :
    (n.plus scope greedy token first parts).readings = n.readings := by
  unfold plus plusStates
  simp (disch := exact fun _ => rfl) only [readings_link, readings_twoWays, readings_mark,
    readings_addState, readings_decide, readings_block, readings_decideAmong]

/-! ## Changes that read -/

/-- The last state gets a transition to one that is added. -/
theorem readings_push {id : Nat} (h : id + 1 = n.size) (kind : StateKind) (rule : Nat)
    (t : Transition) : ((n.addState kind rule).addTransition id t).readings =
      n.readings ++ t.reading?.toList := by
  rw [readings_eq, readings_eq]
  unfold addTransition modifyState addState
  rw [Array.toList_modify, Array.toList_push]
  have hlength : id + 1 = n.states.toList.length := h
  generalize n.states.toList = states at hlength
  clear h
  induction states generalizing id with
  | nil => cases hlength
  | cons s states ih =>
      cases id with
      | zero =>
          rw [List.length_cons, Nat.succ.injEq] at hlength
          obtain rfl := List.length_eq_zero_iff.mp hlength.symm
          rw [List.cons_append, List.modify_zero_cons, List.flatMap_cons, List.flatMap_cons,
            List.filterMap_append]
          cases hread : t.reading? with
          | none => simp [hread]
          | some r => simp [hread]
      | succ id =>
          rw [List.length_cons, Nat.succ.injEq] at hlength
          rw [List.cons_append, List.modify_succ_cons, List.flatMap_cons, List.flatMap_cons,
            ih hlength, List.append_assoc]

theorem readings_single (rule : Nat) (t : Transition) :
    (n.single rule t).readings = n.readings ++ t.reading?.toList := by
  have hpush := readings_push (n.addState .basic rule) (size_addState ..).symm .basic rule t
  rw [readings_addState] at hpush
  exact hpush

end Changes

/-! ## Elements -/

/-- Building goes on: no rule begins elsewhere, and more is read. -/
structure Adds (before after : Builder) (more : List Transition) : Prop where
  starts : after.network.ruleStarts = before.network.ruleStarts
  readings : after.network.readings = before.network.readings ++ more

section Elements

variable {scope : Scope} {b b' b'' : Builder} {more more' : List Transition}

theorem Adds.refl (b : Builder) : Adds b b [] := ⟨rfl, (List.append_nil _).symm⟩

theorem Adds.trans (h : Adds b b' more) (h' : Adds b' b'' more') :
    Adds b b'' (more ++ more') :=
  ⟨h'.starts.trans h.starts, by rw [h'.readings, h.readings, List.append_assoc]⟩

/-- What follows reads nothing. -/
theorem Adds.then (h : Adds b b' more) (h' : Adds b' b'' []) : Adds b b'' more :=
  List.append_nil more ▸ h.trans h'

theorem adds_single (make : Nat → Transition) :
    Adds b ((Build.single scope make).run b).2
      (make (b.network.size + 1)).reading?.toList := by
  rw [run_single]
  exact ⟨rfl, readings_single ..⟩

theorem adds_nothing : Adds b ((Build.nothing scope).run b).2 [] :=
  adds_single _

theorem adds_call {e : Element} {name : String} {precedence : Int}
    (h : Dialect.calls? scope.kind e = some (name, precedence)) (hreader : reader? scope 0 e = none) :
    Adds b ((Build.call scope name precedence).run b).2
      (scope.readings b.network.ruleStarts e) := by
  unfold Build.call Scope.readings Scope.callee?
  rw [h, hreader]
  dsimp only
  cases (scope.grammar.rule? name).filter (·.isLexerRule == (scope.kind == .lexer)) with
  | none => exact adds_nothing
  | some callee => exact adds_single _

theorem adds_characters (cs : List Char) {previous : Nat} (h : previous + 1 = b.network.size) :
    Adds b ((Build.characters scope previous cs).run b).2
      (cs.map fun c => .atom 0 (Symbol.ofChar c)) := by
  induction cs generalizing b previous with
  | nil => exact .refl b
  | cons c cs ih =>
      unfold Build.characters
      simp only [run_bind, run_state, Build.transition, run_update, network_withNetwork,
        withNetwork_withNetwork]
      have hfirst : Adds b (b.withNetwork ((b.network.addState .basic scope.rule).addTransition
          previous (.atom b.network.size (Symbol.ofChar c)))) [.atom 0 (Symbol.ofChar c)] :=
        ⟨rfl, readings_push b.network h ..⟩
      refine hfirst.trans (ih ?_)
      rw [network_withNetwork, size_addTransition, size_addState]

theorem adds_word (text : String) :
    Adds b ((Build.word scope text).run b).2
      (text.toList.map fun c => .atom 0 (Symbol.ofChar c)) := by
  unfold Build.word
  simp only [run_bind, run_state]
  split
  · next hempty =>
      rw [hempty]
      exact adds_nothing
  · have hleft : Adds b (b.withNetwork (b.network.addState .basic scope.rule)) [] :=
      ⟨rfl, by rw [network_withNetwork, readings_addState, List.append_nil]⟩
    exact hleft.trans (adds_characters _ (size_addState ..).symm)

theorem adds_sequence (parts : List Handle) :
    Adds b ((Build.sequence scope parts).run b).2 [] := by
  cases hfirst : parts.head? with
  | none =>
      rw [List.head?_eq_none_iff.mp hfirst]
      exact adds_nothing
  | some first =>
      have hne : parts ≠ [] := by
        rintro rfl
        cases hfirst
      rw [run_sequence scope b hfirst (List.getLast?_eq_some_getLast hne)]
      exact ⟨congrArg Record.starts (record_chain ..), by simp⟩

theorem adds_choice (token : Nat) (site : DecisionSite) (parts : List Handle) :
    Adds b ((Build.choice scope token site parts).run b).2 [] := by
  by_cases hone : parts.length = 1
  · obtain ⟨part, rfl⟩ := List.length_eq_one_iff.mp hone
    exact .refl b
  · rw [run_choice scope b hone]
    exact ⟨congrArg Record.starts (record_choice ..), by simp⟩

theorem adds_suffixed (suffix : Suffix) (greedy : Bool) (token first : Nat)
    (parts : List Handle) :
    Adds b ((Build.suffixed scope suffix greedy token first parts).run b).2 [] := by
  cases suffix with
  | optional =>
      unfold Build.suffixed
      rw [run_optional]
      exact ⟨congrArg Record.starts (record_optional ..), by simp [readings_optional]⟩
  | closure =>
      unfold Build.suffixed
      rw [run_star]
      exact ⟨(congrArg Record.starts (record_star ..)).trans (rules_foldl_file ..).1,
        by simp [readings_star]⟩
  | positiveClosure =>
      unfold Build.suffixed
      rw [run_plus]
      exact ⟨(congrArg Record.starts (record_plus ..)).trans (rules_foldl_file ..).1,
        by simp [readings_plus]⟩

theorem Adds.leaf {e : Element} (h : Adds b b' (scope.readings b.network.ruleStarts e))
    (he : e.leaves = [e]) : Adds b b' (e.leaves.flatMap (scope.readings b.network.ruleStarts)) := by
  rw [he, List.flatMap_singleton]
  exact h

mutual
/-- What is added for an element is read in order. -/
theorem adds_element : ∀ (e : Element) (b : Builder),
    Adds b ((element scope e).run b).2 (e.leaves.flatMap (scope.readings b.network.ruleStarts))
  | .block alts _ extent, b => by
      rw [element, run_bind, Element.leaves]
      exact (adds_altParts alts b).then (adds_choice ..)
  | .suffixed suffix greedy inner extent, b => by
      rw [Element.leaves]
      by_cases hblock : ∃ alts options x, inner = .block alts options x
      · obtain ⟨alts, options, x, rfl⟩ := hblock
        rw [element, run_bind, Element.leaves]
        exact (adds_altParts alts b).then (adds_suffixed ..)
      · rw [element]
        · rw [run_bind]
          exact (adds_element inner b).then (adds_suffixed ..)
        · exact fun alts options x hx => hblock ⟨alts, options, x, hx⟩
  | .labeled _ _ _ inner _, b => by
      rw [element, Element.leaves]
      exact adds_element inner b
  | .ruleRef r, b => by
      refine .leaf ?_ rfl
      rw [element]
      exact adds_call rfl rfl
  | .tokenRef name options extent, b => by
      refine .leaf ?_ rfl
      rw [element]
      cases hkind : scope.kind with
      | lexer =>
          refine @adds_call scope b (.tokenRef name options extent) name 0 ?_ ?_
          · rw [hkind]
            rfl
          · rw [reader?, hkind]
            rfl
      | parser =>
          unfold Scope.readings reader?
          rw [hkind]
          exact adds_single _
  | .quotation literal, b => by
      refine .leaf ?_ rfl
      rw [element]
      unfold Scope.readings reader?
      cases scope.kind with
      | lexer => exact adds_word _
      | parser => exact adds_single _
  | .range _ _ _, b | .set _ _, b | .not _ _, b => by
      refine .leaf ?_ rfl
      rw [element]
      exact adds_single _
  | .wildcard _ _, b => by
      refine .leaf ?_ rfl
      rw [element]
      unfold Scope.readings reader?
      cases scope.kind <;> exact adds_single _
  | .action _, b => by
      refine .leaf ?_ rfl
      rw [element]
      have h := @adds_single scope { b with actions := b.actions + 1 } fun target =>
        .action target scope.rule b.actions
      exact ⟨h.starts, h.readings⟩
  | .predicate code, b => by
      refine .leaf ?_ rfl
      rw [element]
      split
      · exact adds_single _
      · have h := @adds_single scope { b with predicates := b.predicates + 1 } fun target =>
          .predicate target scope.rule b.predicates
        exact ⟨h.starts, h.readings⟩
  | .command _ _ _, b | .epsilon _, b => by
      refine .leaf ?_ rfl
      rw [element]
      exact adds_nothing

theorem adds_elementParts : ∀ (es : List Element) (b : Builder),
    Adds b ((elementParts scope es).run b).2
      ((Element.listLeaves es).flatMap (scope.readings b.network.ruleStarts))
  | [], b => by
      rw [elementParts]
      exact .refl b
  | e :: es, b => by
      have h := adds_element e b
      have h' := adds_elementParts es ((element scope e).run b).2
      rw [h.starts] at h'
      rw [elementParts, run_bind, run_bind, run_pure, Element.listLeaves, List.flatMap_append]
      exact h.trans h'

theorem adds_alternative : ∀ (alt : Alt) (b : Builder),
    Adds b ((alternative scope alt).run b).2
      (alt.leaves.flatMap (scope.readings b.network.ruleStarts))
  | ⟨elements, _, _, _, _⟩, b => by
      rw [alternative, run_bind, Alt.leaves]
      exact (adds_elementParts elements b).then (adds_sequence _)

theorem adds_altParts : ∀ (alts : List Alt) (b : Builder),
    Adds b ((altParts scope alts).run b).2
      ((Alt.listLeaves alts).flatMap (scope.readings b.network.ruleStarts))
  | [], b => by
      rw [altParts]
      exact .refl b
  | a :: as, b => by
      have h := adds_alternative a b
      have h' := adds_altParts as ((alternative scope a).run b).2
      rw [h.starts] at h'
      rw [altParts, run_bind, run_bind, run_pure, Alt.listLeaves, List.flatMap_append]
      exact h.trans h'
end

end Elements

/-! ## Rules -/

section Rules

variable {grammar : Grammar} {vocabulary : Vocabulary} {kind : NetworkKind}

def ruleReadings (grammar : Grammar) (vocabulary : Vocabulary) (kind : NetworkKind)
    (starts : Array Nat) (rule : Rule) : List Transition :=
  (grammar.definition? rule).toList.flatMap fun definition =>
    definition.leaves.flatMap
      ((scopeOf grammar vocabulary kind rule definition).readings starts)

theorem adds_rule (rule : Rule) (definition : RuleDef) (b : Builder) :
    Adds b ((buildRule grammar vocabulary kind rule definition).run b).2
      (definition.leaves.flatMap
        ((scopeOf grammar vocabulary kind rule definition).readings b.network.ruleStarts)) := by
  generalize hafter : ((buildRule grammar vocabulary kind rule definition).run b).2 = after
  unfold buildRule at hafter
  simp only [run_bind] at hafter
  generalize hscope : (Scope.mk grammar vocabulary kind rule.index
    (operatorLoop? rule definition)) = scope at hafter
  rw [show scopeOf grammar vocabulary kind rule definition = scope from hscope]
  have hbody := (@adds_altParts scope definition.alts b).then
    (@adds_choice scope _ definition.block.extent.start .ruleBlock
      ((altParts scope definition.alts).run b).1)
  generalize (Build.choice scope definition.block.extent.start .ruleBlock
    ((altParts scope definition.alts).run b).1).run
    ((altParts scope definition.alts).run b).2 = built at hafter hbody
  obtain ⟨body, b'⟩ := built
  have hget : (get : Build Builder).run b' = (b', b') := rfl
  simp only [hget, Build.link, Build.transition, run_update, network_withNetwork] at hafter
  -- all that is left are links
  have hlinks : ∀ start stop : Nat,
      ((b'.network.link start body.left).link body.right stop).readings =
        b'.network.readings ++ [] := fun start stop => by simp
  refine hbody.then ?_
  split at hafter
  · split at hafter
    · subst hafter
      exact ⟨rfl, hlinks ..⟩
    · subst hafter
      exact ⟨rfl, (readings_link _ _ _).trans (hlinks ..)⟩
  · subst hafter
    exact ⟨rfl, hlinks ..⟩

theorem adds_rules (rules : List Rule) (b : Builder) :
    Adds b ((buildRules grammar vocabulary kind rules).run b).2
      (rules.flatMap (ruleReadings grammar vocabulary kind b.network.ruleStarts)) := by
  induction rules generalizing b with
  | nil => exact .refl b
  | cons rule rules ih =>
      unfold buildRules
      rw [List.flatMap_cons]
      unfold ruleReadings
      cases hdef : grammar.definition? rule with
      | none => exact ih b
      | some definition =>
          have h := @adds_rule grammar vocabulary kind rule definition b
          have h' := ih ((buildRule grammar vocabulary kind rule definition).run b).2
          rw [h.starts] at h'
          rw [Option.toList_some, List.flatMap_singleton]
          exact h.trans h'

theorem starts_ofGrammar (grammar : Grammar) (vocabulary : Vocabulary) (kind : NetworkKind) :
    (ofGrammar grammar vocabulary kind).ruleStarts =
      (declared grammar vocabulary kind).ruleStarts := by
  rw [ofGrammar_eq]
  exact (congrArg Record.starts (record_returns _ _)).trans (adds_rules ..).starts

/-- A network reads what the rules of its grammar read, in their order. -/
theorem readings_ofGrammar (grammar : Grammar) (vocabulary : Vocabulary) (kind : NetworkKind) :
    (ofGrammar grammar vocabulary kind).readings =
      (rulesOf grammar kind).flatMap (ruleReadings grammar vocabulary kind
        (ofGrammar grammar vocabulary kind).ruleStarts) := by
  have hdeclared : ∀ (rules : List Rule) (n : Network),
      (rules.foldl declareRule n).readings = n.readings := by
    intro rules
    induction rules with
    | nil => exact fun _ => rfl
    | cons rule rules ih =>
        intro n
        have hrule : (n.addRule rule.name rule.index).readings = n.readings :=
          (readings_addState (n.addState .ruleStart rule.index) .ruleStop rule.index).trans
            (n.readings_addState ..)
        rw [List.foldl_cons, ih]
        unfold declareRule
        dsimp only
        rw [readings_mark, hrule]
        exact fun _ => rfl
  have hreturns : ∀ (calls : List (Nat × Nat)) (n : Network),
      (n.withReturns calls).readings = n.readings := by
    intro calls
    induction calls with
    | nil => exact fun _ => rfl
    | cons call calls ih =>
        intro n
        exact (ih _).trans (n.readings_link ..)
  have hblank : (blank vocabulary kind).readings = [] := by
    cases kind <;> rfl
  have h := @adds_rules grammar vocabulary kind (rulesOf grammar kind)
    ⟨declared grammar vocabulary kind, 0, 0⟩
  have hfirst : (declared grammar vocabulary kind).readings = [] := (hdeclared ..).trans hblank
  rw [starts_ofGrammar, ofGrammar_eq]
  rw [hreturns, built, h.readings, hfirst, List.nil_append]

/-- A network reads what its rules read, and every reference in them calls the rule it names. -/
structure Complete (network : Network) (grammar : Grammar) (vocabulary : Vocabulary)
    (kind : NetworkKind) : Prop where
  readings : network.readings =
    (rulesOf grammar kind).flatMap (ruleReadings grammar vocabulary kind network.ruleStarts)
  calls : ∀ rule ∈ rulesOf grammar kind, ∀ definition, grammar.definition? rule = some definition →
    ∀ e ∈ definition.leaves, ∀ name precedence,
      Dialect.calls? kind e = some (name, precedence) → ∃ callee start,
        callee ∈ rulesOf grammar kind ∧ callee.name = name ∧
        network.ruleStarts[callee.index]? = some start ∧
        (scopeOf grammar vocabulary kind rule definition).readings network.ruleStarts e =
          [.rule start callee.index precedence 0]

/-- A network is complete if every reference names a rule of its kind. -/
theorem complete_ofGrammar (hg : grammar.Numbered)
    (hcalls : ∀ rule ∈ rulesOf grammar kind, ∀ definition,
      grammar.definition? rule = some definition → ∀ e ∈ definition.leaves, ∀ name precedence,
        Dialect.calls? kind e = some (name, precedence) → ∃ callee,
          grammar.rule? name = some callee ∧ callee.isLexerRule = (kind == .lexer)) :
    (ofGrammar grammar vocabulary kind).Complete grammar vocabulary kind := by
  refine ⟨readings_ofGrammar .., fun rule hrule definition hdefinition e he name precedence h => ?_⟩
  obtain ⟨callee, hname, hkind⟩ := hcalls rule hrule definition hdefinition e he name precedence h
  have hlt : callee.index < (ofGrammar grammar vocabulary kind).ruleStarts.size := by
    rw [starts_ofGrammar]
    exact callee_lt_declared hg vocabulary kind name callee hname hkind
  have hcallee : (scopeOf grammar vocabulary kind rule definition).callee? name = some callee :=
    Option.filter_eq_some_iff.mpr ⟨hname, by rw [hkind]; exact beq_self_eq_true _⟩
  have hreader : reader? (scopeOf grammar vocabulary kind rule definition) 0 e = none := by
    cases e with
    | ruleRef => rfl
    | tokenRef token options extent =>
        rw [Dialect.calls?] at h
        split at h
        · next hlexer => exact if_pos hlexer
        · cases h
    | _ => cases h
  refine ⟨callee, _, mem_rulesOf (List.mem_of_find?_eq_some hname) hkind,
    Grammar.name_of_rule? hname, Array.getElem?_eq_getElem hlt, ?_⟩
  unfold Scope.readings
  rw [hreader, show Dialect.calls? (scopeOf grammar vocabulary kind rule definition).kind e =
    some (name, precedence) from h]
  dsimp only
  rw [hcallee, Option.toList_some, List.map_singleton, Array.getElem?_eq_getElem hlt,
    Option.getD_some]

end Rules

end Network

end GrammarCompiler
