import GrammarCompiler.Proofs.Network.Labels
import GrammarCompiler.Proofs.Network.Region

/-!
# Building the parts of a rule

Whatever stands in a rule, its part is built behind the states there are (`Builds`). The proof
follows the elements of the rule; what the single constructs do to the network is known from
their equations.
-/

namespace GrammarCompiler

open Text (maxInt32)

namespace Network

/-! ## Parts -/

/-- The rules that may be called have start states. -/
def CallsKnown (scope : Scope) (network : Network) : Prop :=
  ∀ name callee, scope.grammar.rule? name = some callee →
    callee.isLexerRule = (scope.kind == .lexer) →
    ∃ start, network.ruleStarts[callee.index]? = some start

/-- What building a part does: it leaves the states below `lo` alone and the part is behind
them. -/
structure Builds (scope : Scope) (lo : Nat) (before after : Builder) (part : Handle) : Prop where
  keeps : Keeps scope.rule lo before.network after.network
  within : part.In lo after.network.size

structure BuildsAll (scope : Scope) (lo : Nat) (before after : Builder) (parts : List Handle) :
    Prop where
  keeps : Keeps scope.rule lo before.network after.network
  within : ∀ part ∈ parts, part.In lo after.network.size

section Builds

variable {scope : Scope} {lo : Nat} {b b' : Builder}

theorem CallsKnown.mono (h : CallsKnown scope b.network)
    (hkeeps : Keeps scope.rule lo b.network b'.network) : CallsKnown scope b'.network := by
  intro name callee hname hkind
  rw [ruleStarts_of_header hkeeps.header_eq]
  exact h name callee hname hkind

/-- A type that is missing is the type of no token. -/
theorem label_le {type? : Option Int} (h : ∀ type, type? = some type → type ≤ maxInt32) :
    type?.getD Symbol.invalid ≤ maxInt32 := by
  cases type? with
  | none => decide
  | some type => exact h type rfl

/-- A part of two states. -/
theorem builds_single (hlo : lo ≤ b.network.size) {make : Nat → Transition}
    (hmake : ((b.network.addState .basic scope.rule).addState .basic scope.rule).Stands lo
      (make (b.network.size + 1)))
    (hfits : LabelFits (make (b.network.size + 1))) :
    Builds scope lo b ((Build.single scope make).run b).2 ((Build.single scope make).run b).1 := by
  rw [run_single]
  refine ⟨keeps_single hlo hmake hfits, ?_⟩
  constructor <;> simp only [network_withNetwork, size_single] <;> omega

/-- A part that leads from its first state to its second one. -/
theorem builds_plain (hlo : lo ≤ b.network.size) {make : Nat → Transition}
    (htarget : ∀ id, (make id).target = id) (hcall : ∀ id, (make id).isCall = false)
    (hfits : ∀ id, LabelFits (make id)) :
    Builds scope lo b ((Build.single scope make).run b).2 ((Build.single scope make).run b).1 := by
  refine builds_single hlo ?_ (hfits _)
  have hstands : ∀ (n : Network) (t : Transition), t.isCall = false →
      (n.Stands lo t ↔ lo ≤ t.target ∧ t.target < n.size) := by
    intro n t ht
    cases t <;> first | exact Iff.rfl | cases ht
  rw [hstands _ _ (hcall _), htarget, size_addState, size_addState]
  omega

theorem builds_nothing (hlo : lo ≤ b.network.size) :
    Builds scope lo b ((Build.nothing scope).run b).2 ((Build.nothing scope).run b).1 :=
  builds_plain hlo (fun _ => rfl) (fun _ => rfl) fun _ => trivial

theorem builds_call (hlo : lo ≤ b.network.size) (hcalls : CallsKnown scope b.network)
    (name : String) (precedence : Int) :
    Builds scope lo b ((Build.call scope name precedence).run b).2
      ((Build.call scope name precedence).run b).1 := by
  unfold Build.call
  split
  · exact builds_nothing hlo
  · next callee hcallee =>
    obtain ⟨hname, hkind⟩ := Option.filter_eq_some_iff.mp hcallee
    obtain ⟨start, hstart⟩ := hcalls name callee hname (beq_iff_eq.mp hkind)
    refine builds_single (b := b) hlo ⟨?_, ?_, ?_⟩ trivial
    · rw [hstart]
      exact hstart
    · omega
    · rw [size_addState, size_addState]
      omega

theorem builds_characters (cs : List Char) {previous : Nat} (hlo : lo ≤ b.network.size)
    (hge : lo ≤ previous) (hlt : previous < b.network.size) :
    Keeps scope.rule lo b.network ((Build.characters scope previous cs).run b).2.network ∧
      lo ≤ ((Build.characters scope previous cs).run b).1 ∧
      ((Build.characters scope previous cs).run b).1 <
        ((Build.characters scope previous cs).run b).2.network.size := by
  induction cs generalizing b previous with
  | nil => exact ⟨Keeps.refl _, hge, hlt⟩
  | cons c cs ih =>
      unfold Build.characters
      simp only [run_bind, run_state, Build.transition, run_update, network_withNetwork,
        withNetwork_withNetwork]
      have hsize : ((b.network.addState .basic scope.rule).addTransition previous
          (.atom b.network.size (Symbol.ofChar c))).size = b.network.size + 1 := by
        rw [size_addTransition, size_addState]
      have hkeeps : Keeps scope.rule lo b.network
          ((b.network.addState .basic scope.rule).addTransition previous
            (.atom b.network.size (Symbol.ofChar c))) := by
        refine (keeps_addState hlo (by decide)).trans
          (keeps_addTransition hge ⟨hlo, ?_⟩ (Symbol.ofChar_le c))
        rw [size_addState]
        exact Nat.lt_succ_self _
      obtain ⟨hrest, hin⟩ := @ih (b.withNetwork _) b.network.size
        (by rw [network_withNetwork, hsize]; omega) hlo
        (by rw [network_withNetwork, hsize]; omega)
      exact ⟨hkeeps.trans hrest, hin⟩

theorem builds_word (hlo : lo ≤ b.network.size) (text : String) :
    Builds scope lo b ((Build.word scope text).run b).2 ((Build.word scope text).run b).1 := by
  unfold Build.word
  simp only [run_bind, run_state]
  have hleft : Keeps scope.rule lo b.network (b.network.addState .basic scope.rule) :=
    keeps_addState hlo (by decide)
  split
  · exact builds_nothing hlo
  · have hsize : b.network.size < (b.network.addState .basic scope.rule).size := by
      rw [size_addState]
      exact Nat.lt_succ_self _
    obtain ⟨hkeeps, hge, hlt⟩ := @builds_characters scope lo
      (b.withNetwork (b.network.addState .basic scope.rule)) text.toList _
      (by rw [network_withNetwork]; omega) hlo hsize
    exact ⟨hleft.trans hkeeps, hlo, Nat.lt_of_lt_of_le hsize hkeeps.size_le, hge, hlt⟩

/-! ## Constructs -/

theorem builds_sequence (hlo : lo ≤ b.network.size) {parts : List Handle}
    (hparts : ∀ p ∈ parts, p.In lo b.network.size) :
    Builds scope lo b ((Build.sequence scope parts).run b).2
      ((Build.sequence scope parts).run b).1 := by
  cases hfirst : parts.head? with
  | none =>
      rw [List.head?_eq_none_iff.mp hfirst]
      exact builds_nothing hlo
  | some first =>
      have hne : parts ≠ [] := by
        rintro rfl
        cases hfirst
      have hlast := List.getLast?_eq_some_getLast hne
      rw [run_sequence scope b hfirst hlast]
      have h1 := hparts first (List.mem_of_mem_head? hfirst)
      have h2 := hparts _ (List.getLast_mem hne)
      have hkeeps : Keeps scope.rule lo b.network (b.network.chain parts) := keeps_chain hparts
      refine ⟨hkeeps, h1.left_ge, ?_, h2.right_ge, ?_⟩
      · exact Nat.lt_of_lt_of_le h1.left_lt hkeeps.size_le
      · exact Nat.lt_of_lt_of_le h2.right_lt hkeeps.size_le

theorem builds_choice (hlo : lo ≤ b.network.size) {parts : List Handle}
    (hparts : ∀ p ∈ parts, p.In lo b.network.size) (token : Nat) (site : DecisionSite) :
    Builds scope lo b ((Build.choice scope token site parts).run b).2
      ((Build.choice scope token site parts).run b).1 := by
  by_cases hone : parts.length = 1
  · obtain ⟨part, rfl⟩ := List.length_eq_one_iff.mp hone
    exact ⟨Keeps.refl _, hparts part (List.mem_cons_self ..)⟩
  · rw [run_choice scope b hone]
    refine ⟨keeps_choice hlo hparts token site, ?_⟩
    constructor <;> simp only [network_withNetwork, size_choice] <;> omega

theorem builds_suffixed (hlo : lo ≤ b.network.size) {parts : List Handle}
    (hparts : ∀ p ∈ parts, p.In lo b.network.size) (suffix : Suffix) (greedy : Bool)
    (token first : Nat) :
    Builds scope lo b ((Build.suffixed scope suffix greedy token first parts).run b).2
      ((Build.suffixed scope suffix greedy token first parts).run b).1 := by
  cases suffix with
  | optional =>
      unfold Build.suffixed
      rw [run_optional]
      refine ⟨keeps_optional hlo hparts greedy token, ?_⟩
      constructor <;> simp only [network_withNetwork, size_optional] <;> omega
  | closure =>
      unfold Build.suffixed
      rw [run_star]
      refine ⟨keeps_star rfl hlo hparts greedy token first, ?_⟩
      constructor <;> simp only [network_withNetwork, size_star] <;> omega
  | positiveClosure =>
      unfold Build.suffixed
      rw [run_plus]
      refine ⟨keeps_plus rfl hlo hparts greedy token first, ?_⟩
      constructor <;> simp only [network_withNetwork, size_plus] <;> omega

theorem BuildsAll.size (h : BuildsAll scope lo b b' parts) (hlo : lo ≤ b.network.size) :
    lo ≤ b'.network.size :=
  Nat.le_trans hlo h.keeps.size_le

theorem Builds.size {part : Handle} (h : Builds scope lo b b' part)
    (hlo : lo ≤ b.network.size) : lo ≤ b'.network.size :=
  Nat.le_trans hlo h.keeps.size_le

theorem Builds.all {part : Handle} (h : Builds scope lo b b' part) :
    BuildsAll scope lo b b' [part] :=
  ⟨h.keeps, fun _ hp => List.mem_singleton.mp hp ▸ h.within⟩

theorem Builds.cons {b'' : Builder} {part : Handle} {parts : List Handle}
    (h : Builds scope lo b b' part) (h' : BuildsAll scope lo b' b'' parts) :
    BuildsAll scope lo b b'' (part :: parts) :=
  ⟨h.keeps.trans h'.keeps,
    List.forall_mem_cons.mpr ⟨h.within.mono h'.keeps.size_le, h'.within⟩⟩

/-- What follows after parts have been built. -/
theorem BuildsAll.then {b'' : Builder} {parts : List Handle} {part : Handle}
    (h : BuildsAll scope lo b b' parts) (h' : Builds scope lo b' b'' part) :
    Builds scope lo b b'' part :=
  ⟨h.keeps.trans h'.keeps, h'.within⟩

end Builds

/-! ## Elements -/

section Elements

variable {scope : Scope} {lo : Nat}

/-- What building does for an element. A suffix asks for the alternatives of a block apart from
the choice between them. -/
structure BuildsElement (scope : Scope) (lo : Nat) (b : Builder) (e : Element) : Prop where
  part : Builds scope lo b ((element scope e).run b).2 ((element scope e).run b).1
  alts : ∀ alts options extent, e = .block alts options extent →
    BuildsAll scope lo b ((altParts scope alts).run b).2 ((altParts scope alts).run b).1

theorem builds_element_suffixed {b : Builder} (hlo : lo ≤ b.network.size) {inner : Element}
    (h : BuildsElement scope lo b inner) (suffix : Suffix) (greedy : Bool) (extent : Extent) :
    BuildsElement scope lo b (.suffixed suffix greedy inner extent) := by
  refine ⟨?_, fun _ _ _ h => nomatch h⟩
  by_cases hblock : ∃ alts options x, inner = .block alts options x
  · obtain ⟨alts, options, x, rfl⟩ := hblock
    have halts := h.alts alts options x rfl
    rw [element, run_bind]
    exact halts.then (builds_suffixed (halts.size hlo) halts.within _ _ _ _)
  · rw [element]
    · rw [run_bind]
      exact h.part.all.then (builds_suffixed (h.part.size hlo) h.part.all.within _ _ _ _)
    · exact fun alts options x hx => hblock ⟨alts, options, x, hx⟩

/-- An element that is no block. -/
theorem BuildsElement.leaf {b : Builder} {e : Element}
    (h : Builds scope lo b ((element scope e).run b).2 ((element scope e).run b).1)
    (hblock : ∀ alts options extent, e ≠ .block alts options extent) :
    BuildsElement scope lo b e :=
  ⟨h, fun alts options extent he => absurd he (hblock alts options extent)⟩

mutual
/-- The part of an element is built behind the states there are. -/
theorem builds_element (hv : scope.vocabulary.Fits) :
    ∀ (e : Element) {b : Builder}, lo ≤ b.network.size → CallsKnown scope b.network →
      BuildsElement scope lo b e
  | .block alts _ extent, b, hlo, hcalls => by
      have h := builds_altParts hv alts hlo hcalls
      refine ⟨?_, fun _ _ _ heq => by cases heq; exact h⟩
      rw [element, run_bind]
      exact h.then (builds_choice (h.size hlo) h.within _ _)
  | .suffixed suffix greedy inner extent, b, hlo, hcalls =>
      builds_element_suffixed hlo (builds_element hv inner hlo hcalls) suffix greedy extent
  | .labeled _ _ _ inner _, b, hlo, hcalls => by
      refine .leaf ?_ fun _ _ _ h => nomatch h
      rw [element]
      exact (builds_element hv inner hlo hcalls).part
  | .ruleRef r, b, hlo, hcalls => by
      refine .leaf ?_ fun _ _ _ h => nomatch h
      rw [element]
      exact builds_call hlo hcalls _ _
  | .tokenRef name _ _, b, hlo, hcalls => by
      refine .leaf ?_ fun _ _ _ h => nomatch h
      rw [element]
      split
      · exact builds_call hlo hcalls _ _
      · exact builds_plain hlo (fun _ => rfl) (fun _ => rfl) fun _ => label_le (hv.names name)
  | .quotation literal, b, hlo, hcalls => by
      refine .leaf ?_ fun _ _ _ h => nomatch h
      rw [element]
      split
      · exact builds_word hlo _
      · exact builds_plain hlo (fun _ => rfl) (fun _ => rfl) fun _ => label_le (hv.literals _)
  | .range first last _, b, hlo, hcalls => by
      refine .leaf ?_ fun _ _ _ h => nomatch h
      rw [element]
      exact builds_plain hlo (fun _ => rfl) (fun _ => rfl) fun _ => firstSymbol_le last
  | .wildcard _ _, b, hlo, hcalls => by
      refine .leaf ?_ fun _ _ _ h => nomatch h
      rw [element]
      cases scope.kind with
      | lexer =>
          exact builds_plain hlo (fun _ => rfl) (fun _ => rfl) fun _ =>
            IntervalSet.canonical_range (by decide)
      | parser => exact builds_plain hlo (fun _ => rfl) (fun _ => rfl) fun _ => trivial
  | .set elements _, b, hlo, hcalls => by
      refine .leaf ?_ fun _ _ _ h => nomatch h
      rw [element]
      exact builds_plain hlo (fun _ => rfl) (fun _ => rfl) fun _ =>
        (gains_addAllSymbols (fun _ _ => True) hv elements IntervalSet.canonical_empty).canonical
  | .not operand _, b, hlo, hcalls => by
      refine .leaf ?_ fun _ _ _ h => nomatch h
      rw [element]
      exact builds_plain hlo (fun _ => rfl) (fun _ => rfl) fun _ =>
        (gains_operandSymbols (fun _ _ => True) hv operand).canonical
  | .action _, b, hlo, hcalls => by
      refine .leaf ?_ fun _ _ _ h => nomatch h
      rw [element]
      have h := @builds_plain scope lo { b with actions := b.actions + 1 } hlo
        (fun target => .action target scope.rule b.actions) (fun _ => rfl)
        (fun _ => rfl) fun _ => trivial
      exact ⟨h.keeps, h.within⟩
  | .predicate code, b, hlo, hcalls => by
      refine .leaf ?_ fun _ _ _ h => nomatch h
      rw [element]
      split
      · exact builds_plain hlo (fun _ => rfl) (fun _ => rfl) fun _ => trivial
      · have h := @builds_plain scope lo { b with predicates := b.predicates + 1 } hlo
          (fun target => .predicate target scope.rule b.predicates) (fun _ => rfl)
          (fun _ => rfl) fun _ => trivial
        exact ⟨h.keeps, h.within⟩
  | .command _ _ _, b, hlo, hcalls | .epsilon _, b, hlo, hcalls => by
      refine .leaf ?_ fun _ _ _ h => nomatch h
      rw [element]
      exact builds_nothing hlo

theorem builds_elementParts (hv : scope.vocabulary.Fits) :
    ∀ (es : List Element) {b : Builder}, lo ≤ b.network.size → CallsKnown scope b.network →
      BuildsAll scope lo b ((elementParts scope es).run b).2 ((elementParts scope es).run b).1
  | [], b, hlo, hcalls => by
      rw [elementParts]
      exact ⟨Keeps.refl _, fun _ h => absurd h List.not_mem_nil⟩
  | e :: es, b, hlo, hcalls => by
      have h := (builds_element hv e hlo hcalls).part
      rw [elementParts, run_bind, run_bind, run_pure]
      exact h.cons (builds_elementParts hv es (h.size hlo) (hcalls.mono h.keeps))

theorem builds_alternative (hv : scope.vocabulary.Fits) :
    ∀ (alt : Alt) {b : Builder}, lo ≤ b.network.size → CallsKnown scope b.network →
      Builds scope lo b ((alternative scope alt).run b).2 ((alternative scope alt).run b).1
  | ⟨elements, _, _, _, _⟩, b, hlo, hcalls => by
      have h := builds_elementParts hv elements hlo hcalls
      rw [alternative, run_bind]
      exact h.then (builds_sequence (h.size hlo) h.within)

theorem builds_altParts (hv : scope.vocabulary.Fits) :
    ∀ (alts : List Alt) {b : Builder}, lo ≤ b.network.size → CallsKnown scope b.network →
      BuildsAll scope lo b ((altParts scope alts).run b).2 ((altParts scope alts).run b).1
  | [], b, hlo, hcalls => by
      rw [altParts]
      exact ⟨Keeps.refl _, fun _ h => absurd h List.not_mem_nil⟩
  | a :: as, b, hlo, hcalls => by
      have h := builds_alternative hv a hlo hcalls
      rw [altParts, run_bind, run_bind, run_pure]
      exact h.cons (builds_altParts hv as (h.size hlo) (hcalls.mono h.keeps))
end

end Elements

end Network

end GrammarCompiler
