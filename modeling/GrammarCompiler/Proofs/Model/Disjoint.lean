import GrammarCompiler.Proofs.IntervalSet.Algebra
import GrammarCompiler.Proofs.IntervalSet.Reachable
import GrammarCompiler.Proofs.Model.Layout

/-!
# Alternatives that one token tells apart

The test goes through the alternatives once and compares the set of each one with the union of those
before it. It passes exactly if every alternative has a set and no symbol is in two of them
(`disjoint_iff_apart`), so the order of the alternatives does not matter.

Every choice of a model comes from the lookahead of its decision (`Source.makes_model`). If its kind
says that the next token settles it, the test was passed, and no type is in two of its test sets.
-/

namespace GrammarCompiler

namespace IntervalSet

/-- If both entries are sets, they have no symbol in common. -/
def Apart (x y : Option IntervalSet) : Prop :=
  ∀ set set' n, x = some set → y = some set' → n ∈ set → n ∉ set'

theorem Apart.symm {x y : Option IntervalSet} (h : Apart x y) : Apart y x :=
  fun set set' n hset hset' hn hn' => h set' set n hset' hset hn' hn

/-- Every alternative has a set, and no symbol is in two of them. -/
def Look.Apart (look : Look) : Prop :=
  (∀ entry ∈ look, ∃ set, entry = some set) ∧ look.Pairwise IntervalSet.Apart

theorem Look.Apart.perm {look look' : Look} (hperm : look.Perm look') (h : look.Apart) :
    look'.Apart :=
  ⟨fun entry hentry => h.1 entry (hperm.mem_iff.mpr hentry),
    h.2.perm hperm IntervalSet.Apart.symm⟩

end IntervalSet

open IntervalSet

/-! ## The test -/

/-- The test passes if the sets are apart from each other and from what has been seen. -/
theorem disjointFrom_of_apart {look : Look} (hlook : ∀ set, some set ∈ look → set.Canonical)
    {seen : IntervalSet} (hseen : seen.Canonical) (h : look.Apart)
    (hfree : ∀ set, some set ∈ look → ∀ n ∈ set, n ∉ seen) : disjointFrom seen look = true := by
  induction look generalizing seen with
  | nil => rfl
  | cons entry rest ih =>
      obtain ⟨hsome, hpairs⟩ := h
      obtain ⟨⟨set, rfl⟩, hrest⟩ := List.forall_mem_cons.mp hsome
      obtain ⟨hhead, hpairs⟩ := List.pairwise_cons.mp hpairs
      have hset := hlook set (List.mem_cons_self ..)
      have hclear : ¬set.intersects seen = true := by
        rw [intersects_iff hset hseen]
        exact fun ⟨n, hn, hold⟩ => hfree set (List.mem_cons_self ..) n hn hold
      rw [disjointFrom, Bool.and_eq_true, Bool.not_eq_true', ← Bool.not_eq_true]
      refine ⟨hclear, ih (fun s hs => hlook s (List.mem_cons_of_mem _ hs)) (hseen.addAll hset)
        ⟨hrest, hpairs⟩ fun other hother n hn hin => ?_⟩
      rcases (mem_addAll hseen hset n).mp hin with hold | hnew
      · exact hfree other (List.mem_cons_of_mem _ hother) n hn hold
      · exact hhead (some other) hother set other n rfl rfl hnew hn

theorem disjoint_iff {look : Look} (hlook : ∀ set, some set ∈ look → set.Canonical) :
    disjoint look = true ↔ look.Apart :=
  ⟨disjoint_spec hlook, fun h =>
    disjointFrom_of_apart hlook canonical_empty h fun _ _ n _ => not_mem_empty n⟩

/-- The order of the alternatives does not matter. -/
theorem disjoint_perm {look look' : Look} (hlook : ∀ set, some set ∈ look → set.Canonical)
    (hperm : look.Perm look') : disjoint look' = disjoint look := by
  have hlook' : ∀ set, some set ∈ look' → set.Canonical :=
    fun set hset => hlook set (hperm.mem_iff.mpr hset)
  rw [Bool.eq_iff_iff, disjoint_iff hlook, disjoint_iff hlook']
  exact ⟨.perm hperm.symm, .perm hperm⟩

/-! ## Choices -/

/-- No type is in two tests of a choice. -/
def Choice.Apart (choice : Choice) : Prop :=
  choice.look.Pairwise fun x y => ∀ t ∈ x.tokens, t ∉ y.tokens

namespace ParserModel

namespace Source

/-- A choice is made from the lookahead of its decision. -/
def Makes (source : Source) (choice : Choice) : Prop :=
  ∃ suffix alts, choice = source.choice suffix choice.decision alts

/-- All of some choices are made from the lookahead of their decisions. -/
def MakesAll (source : Source) (choices : List Choice) : Prop :=
  ∀ choice ∈ choices, source.Makes choice

section Made

variable {source : Source} {choice : Choice} {choices choices' : List Choice}

theorem Makes.apart (h : source.Makes choice) (hll1 : choice.kind.isLL1 = true)
    (hlook : ∀ set, some set ∈ source.lookOf choice.decision → set.Canonical) : choice.Apart := by
  obtain ⟨suffix, alts, hchoice⟩ := h
  rw [hchoice] at hll1
  obtain ⟨hdisjoint, -, htests⟩ := settled_choice hll1
  obtain ⟨hsome, hpairs⟩ := (disjoint_iff hlook).mp hdisjoint
  rw [Choice.Apart, congrArg Choice.look hchoice, htests, List.pairwise_map]
  refine hpairs.imp_of_mem fun {x y} hx hy hapart t ht ht' => ?_
  obtain ⟨set, rfl⟩ := hsome x hx
  obtain ⟨set', rfl⟩ := hsome y hy
  rw [TestSet.mem_tokens_ofSet] at ht ht'
  exact hapart set set' t rfl rfl ht ht'

theorem MakesAll.append (h : source.MakesAll choices) (h' : source.MakesAll choices') :
    source.MakesAll (choices ++ choices') :=
  List.forall_mem_append.mpr ⟨h, h'⟩

end Made

/-! ## All choices of a model -/

section Making

variable (source : Source)

theorem makesAll_nil : source.MakesAll [] := nofun

theorem makes_choiceAt (token : Nat) (site : DecisionSite) (suffix : Option Suffix)
    {alts : List AltCode} (h : source.MakesAll (AltCode.listChoices alts)) :
    source.MakesAll (Operation.listChoices (source.choiceAt token site suffix alts)) := by
  unfold choiceAt
  split
  · rw [listChoices_choice]
    exact List.forall_mem_cons.mpr ⟨⟨suffix, alts, rfl⟩, h⟩
  · exact source.makesAll_nil

theorem makes_block (token : Nat) (site : DecisionSite) {alts : List AltCode}
    (h : source.MakesAll (AltCode.listChoices alts)) :
    source.MakesAll (Operation.listChoices (source.block token site alts)) := by
  unfold block
  split
  · rw [listChoices_alone] at h
    exact h
  · exact source.makes_choiceAt token site none h

theorem makes_loopBody (token : Nat) (site : DecisionSite) (num : Nat) {alts : List AltCode}
    (h : source.MakesAll (AltCode.listChoices alts)) :
    source.MakesAll (AltCode.listChoices (source.loopBody token site num alts)) := by
  rw [loopBody, listChoices_alone]
  exact source.makes_block token site h

theorem makes_suffixed (suffix : Suffix) (greedy : Bool) (token first : Nat)
    {alts : List AltCode} (h : source.MakesAll (AltCode.listChoices alts)) :
    source.MakesAll (Operation.listChoices (source.suffixed suffix greedy token first alts)) := by
  unfold suffixed
  cases suffix with
  | optional =>
      refine source.makes_choiceAt token _ _ ?_
      rw [listChoices_renumber (· + if greedy then 0 else 1)]
      exact h
  | closure =>
      exact source.makes_choiceAt first _ _ (source.makes_loopBody token _ _ h)
  | positiveClosure =>
      exact source.makes_choiceAt first _ _ (source.makes_loopBody token _ _ h)

mutual
theorem makes_element : ∀ (e : Element) (label : Option String),
    source.MakesAll (Operation.listChoices (source.element label e))
  | .block alts options extent, label => by
      rw [Source.element]
      exact source.makes_block _ _ (makes_alts alts 1)
  | .suffixed suffix greedy inner extent, label => by
      by_cases hblock : ∃ alts options x, inner = .block alts options x
      · obtain ⟨alts, options, x, rfl⟩ := hblock
        rw [Source.element]
        exact source.makes_suffixed suffix greedy _ _ (makes_alts alts 1)
      · rw [Source.element]
        · refine source.makes_suffixed suffix greedy _ _ ?_
          rw [listChoices_alone]
          exact makes_element inner none
        · exact fun alts options x h => hblock ⟨alts, options, x, h⟩
  | .labeled _ name _ inner _, label => by
      rw [Source.element]
      exact makes_element inner (some name)
  | .predicate code, label => by
      rw [Source.element]
      split <;> exact source.makesAll_nil
  | .ruleRef _, _ | .tokenRef _ _ _, _ | .quotation _, _ | .range _ _ _, _ | .wildcard _ _, _
  | .not _ _, _ | .set _ _, _ | .action _, _ | .command _ _ _, _ | .epsilon _, _ => by
      rw [Source.element]
      exact source.makesAll_nil

theorem makes_elements : ∀ es : List Element,
    source.MakesAll (Operation.listChoices (source.elements es))
  | [] => by
      rw [Source.elements]
      exact source.makesAll_nil
  | e :: es => by
      rw [Source.elements, listChoices_append]
      exact (makes_element e none).append (makes_elements es)

theorem makes_alts : ∀ (alts : List Alt) (num : Nat),
    source.MakesAll (AltCode.listChoices (source.alts num alts))
  | [], num => by
      rw [Source.alts]
      exact source.makesAll_nil
  | ⟨elements, options, label, extent, info⟩ :: alts, num => by
      rw [Source.alts, AltCode.listChoices, Source.alt, AltCode.choices]
      exact (makes_elements elements).append (makes_alts alts (num + 1))
end

theorem makes_model : source.MakesAll source.model.choices := by
  intro choice hchoice
  obtain ⟨function, hfunction, hchoice⟩ := List.mem_flatMap.mp hchoice
  obtain ⟨rule, -, hsome⟩ := List.mem_filterMap.mp hfunction
  obtain ⟨definition, -, rfl⟩ := Option.map_eq_some_iff.mp hsome
  exact source.makes_block _ _ (source.makes_alts definition.alts 1) choice hchoice

end Making

end Source

end ParserModel

/-- The test tells whether every alternative has a set and no symbol is in two of them, in whatever
order the alternatives come. So where the next token settles a choice that is made from them, no
type is in two of its tests. -/
theorem disjoint_iff_apart {look : Look} (hlook : ∀ set, some set ∈ look → set.Reachable) :
    (disjoint look = true ↔ look.Apart) ∧
      (∀ look', look.Perm look' → disjoint look' = disjoint look) ∧
      ∀ source : ParserModel.Source, (∀ choice ∈ source.model.choices, source.Makes choice) ∧
        ∀ choice, source.Makes choice → source.lookOf choice.decision = look →
          choice.kind.isLL1 = true → choice.Apart := by
  have hcanonical : ∀ set, some set ∈ look → set.Canonical :=
    fun set hset => (hlook set hset).bounded.toCanonical
  refine ⟨disjoint_iff hcanonical, fun look' => disjoint_perm hcanonical, fun source =>
    ⟨source.makes_model, fun choice hmakes hdecision hll1 => ?_⟩⟩
  rw [← hdecision] at hcanonical
  exact hmakes.apart hll1 hcanonical

/-- The second set lies between the parts of the first one. -/
theorem disjoint_iff_apart_between :
    let look : Look := [some ((IntervalSet.empty.add 1).add 3), some (IntervalSet.empty.add 2)]
    let source : ParserModel.Source :=
      ⟨.ofDef "T.g" ⟨.parser, "T", [], [], [], [], [], .empty⟩, .empty .parser 3, .empty, [look],
        {}⟩
    let choice := source.choice none 0 [⟨1, []⟩, ⟨2, []⟩]
    (∀ set, some set ∈ look → set.Reachable) ∧ look.Apart ∧ disjoint look.reverse = true ∧
      source.Makes choice ∧ source.lookOf choice.decision = look ∧ choice.kind.isLL1 = true ∧
      choice.Apart := by
  intro look source choice
  have hlook : ∀ set, some set ∈ look → set.Reachable := by
    have hfirst : ((IntervalSet.empty.add 1).add 3).Reachable :=
      (Reachable.empty.add (by decide)).add (by decide)
    have hsecond : (IntervalSet.empty.add 2).Reachable := Reachable.empty.add (by decide)
    intro set hset
    rcases List.mem_pair.mp hset with h | h
    · rw [Option.some.inj h]
      exact hfirst
    · rw [Option.some.inj h]
      exact hsecond
  obtain ⟨happart, hperm, hmade⟩ := disjoint_iff_apart hlook
  have hdisjoint : disjoint look = true := by decide +kernel
  have hmakes : source.Makes choice := ⟨none, _, rfl⟩
  have hll1 : choice.kind.isLL1 = true := by decide +kernel
  exact ⟨hlook, happart.mp hdisjoint, (hperm _ (List.reverse_perm look).symm).trans hdisjoint,
    hmakes, rfl, hll1, (hmade source).2 choice hmakes rfl hll1⟩

end GrammarCompiler
