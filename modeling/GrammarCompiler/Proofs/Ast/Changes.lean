import GrammarCompiler.Ast.Shift
import GrammarCompiler.Proofs.Ast.Keys
import GrammarCompiler.Recursion.Elimination

/-!
# Changes of rules

Elements are given options, alternatives are tied to what was analyzed about them, and rules move
to other tokens. The first two change no key (`SameKeys`), and none of them changes whether a rule
is formed.
-/

namespace GrammarCompiler

/-! ## Changes that keep keys -/

/-- Two elements that differ in nothing that a key is made of. -/
structure SameKeys (e e' : Element) : Prop where
  keys : e.keys = e'.keys
  inner : e.innerKeys = e'.innerKeys
  altCount : e.altCount = e'.altCount
  extent : e.extent = e'.extent
  formed : e.isFormed = e'.isFormed

/-- As many alternatives that differ in nothing that a key is made of. -/
structure SameAlts (as as' : List Alt) : Prop where
  keys : Alt.listKeys as = Alt.listKeys as'
  length : as.length = as'.length
  formed : Alt.listFormed as = Alt.listFormed as'

theorem SameKeys.refl (e : Element) : SameKeys e e := ⟨rfl, rfl, rfl, rfl, rfl⟩

theorem SameAlts.isEmpty {as as' : List Alt} (h : SameAlts as as') : as.isEmpty = as'.isEmpty := by
  have hlength := h.length
  cases as <;> cases as' <;> first | rfl | cases hlength

theorem SameAlts.block {as as' : List Alt} (h : SameAlts as as') (options options' : Options)
    (extent : Extent) : SameKeys (.block as options extent) (.block as' options' extent) := by
  refine ⟨?_, h.keys, h.length, rfl, ?_⟩
  · rw [Element.keys, Element.keys, h.keys, h.length]
  · rw [Element.isFormed, Element.isFormed, h.formed, h.isEmpty]

theorem SameKeys.suffixed {e e' : Element} (h : SameKeys e e') (suffix : Suffix) (greedy : Bool)
    (extent : Extent) :
    SameKeys (.suffixed suffix greedy e extent) (.suffixed suffix greedy e' extent) := by
  have hkeys : (Element.suffixed suffix greedy e extent).keys =
      (Element.suffixed suffix greedy e' extent).keys := by
    rw [Element.keys_suffixed, Element.keys_suffixed, h.inner, h.altCount, h.extent]
  exact ⟨hkeys, hkeys, rfl, rfl, h.formed⟩

/-- A rule whose alternatives are replaced by such ones. -/
theorem SameAlts.withAlts {rule : RuleDef} {as : List Alt} (h : SameAlts as rule.alts) :
    (rule.withAlts as).keys = rule.keys ∧ (rule.withAlts as).isFormed = rule.isFormed := by
  constructor
  · unfold RuleDef.keys
    rw [← h.keys, ← h.length]
    rfl
  · unfold RuleDef.isFormed
    rw [← h.formed, ← h.isEmpty]
    rfl

section MapOptions

variable {σ : Type} (f : σ → Element → σ × Options)

theorem Element.isNegatable_mapOptions (e : Element) (s : σ) :
    Cursor.isNegatable (e.mapOptions f s).2 = Cursor.isNegatable e := by
  cases e <;> rfl

theorem Element.all_mapListOptions (es : List Element) (s : σ) :
    (Element.mapListOptions f s es).2.all Cursor.isNegatable = es.all Cursor.isNegatable := by
  induction es generalizing s with
  | nil => rfl
  | cons e es ih =>
      rw [Element.mapListOptions, List.all_cons, List.all_cons, ih, Element.isNegatable_mapOptions]

mutual
theorem Element.sameKeys_mapOptions : ∀ (e : Element) (s : σ), SameKeys (e.mapOptions f s).2 e
  | .block alts o extent, s =>
      (Alt.sameAlts_mapOptions alts (f s (.block alts o extent)).1).block _ o extent
  | .suffixed suffix greedy inner extent, s =>
      (Element.sameKeys_mapOptions inner _).suffixed suffix greedy extent
  | .labeled isList label token inner extent, s => by
      have h := Element.sameKeys_mapOptions inner
        (f s (.labeled isList label token inner extent)).1
      exact ⟨h.keys, h.keys, rfl, rfl, h.formed⟩
  | .not operand extent, s =>
      ⟨rfl, rfl, rfl, rfl,
        (Element.sameKeys_mapOptions operand (f s (.not operand extent)).1).formed⟩
  | .set elements extent, s =>
      ⟨rfl, rfl, rfl, rfl, Element.all_mapListOptions f elements (f s (.set elements extent)).1⟩
  | .ruleRef _, _ | .tokenRef _ _ _, _ | .quotation _, _ | .range _ _ _, _ | .wildcard _ _, _
  | .action _, _ | .predicate _, _ | .command _ _ _, _ | .epsilon _, _ => ⟨rfl, rfl, rfl, rfl, rfl⟩

theorem Element.listKeys_mapOptions : ∀ (es : List Element) (s : σ),
    Element.listKeys (Element.mapListOptions f s es).2 = Element.listKeys es ∧
      Element.listFormed (Element.mapListOptions f s es).2 = Element.listFormed es
  | [], _ => ⟨rfl, rfl⟩
  | e :: es, s => by
      have he := Element.sameKeys_mapOptions e s
      obtain ⟨hkeys, hformed⟩ := Element.listKeys_mapOptions es (e.mapOptions f s).1
      rw [Element.mapListOptions, Element.listKeys, Element.listKeys, Element.listFormed,
        Element.listFormed, he.keys, he.formed, hkeys, hformed]
      exact ⟨rfl, rfl⟩

theorem Alt.keys_mapOptions : ∀ (a : Alt) (s : σ),
    (a.mapOptions f s).2.keys = a.keys ∧ (a.mapOptions f s).2.isFormed = a.isFormed
  | ⟨elements, _, _, _, _⟩, s => Element.listKeys_mapOptions elements s

theorem Alt.sameAlts_mapOptions : ∀ (as : List Alt) (s : σ),
    SameAlts (Alt.mapListOptions f s as).2 as
  | [], _ => ⟨rfl, rfl, rfl⟩
  | a :: as, s => by
      obtain ⟨hkeys, hformed⟩ := Alt.keys_mapOptions a s
      have has := Alt.sameAlts_mapOptions as (a.mapOptions f s).1
      rw [Alt.mapListOptions]
      refine ⟨?_, congrArg (· + 1) has.length, ?_⟩
      · rw [Alt.listKeys, Alt.listKeys, hkeys, has.keys]
      · rw [Alt.listFormed, Alt.listFormed, hformed, has.formed]
end

end MapOptions

namespace LeftRecursion

theorem sameAlts_pointAlts (infos : List Nat) (alts : List Alt) :
    SameAlts (pointAlts infos alts) alts := by
  unfold pointAlts
  rw [List.mapIdx_eq_zipIdx_map]
  generalize 0 = n
  induction alts generalizing n with
  | nil => exact ⟨rfl, rfl, rfl⟩
  | cons alt alts ih =>
      obtain ⟨elements, options, label, extent, info⟩ := alt
      have ih := ih (n + 1)
      rw [List.zipIdx_cons, List.map_cons]
      refine ⟨?_, congrArg (· + 1) ih.length, ?_⟩
      · rw [Alt.listKeys, Alt.listKeys, ih.keys]
        dsimp only
        split <;> rfl
      · rw [Alt.listFormed, Alt.listFormed, ih.formed]
        dsimp only
        split <;> rfl

theorem sameKeys_linkPrimary (lr : LeftRecursion) (e : Element) :
    SameKeys (lr.linkPrimary e).2 e := by
  unfold linkPrimary
  split
  · exact (sameAlts_pointAlts lr.primary _).block ..
  · exact .refl _

theorem sameKeys_linkOperators (lr : LeftRecursion) (e : Element) :
    SameKeys (lr.linkOperators e).2 e := by
  unfold linkOperators
  split
  · exact ((sameAlts_pointAlts (lr.operators.map (·.2)) _).block ..).suffixed ..
  · exact .refl _

theorem listKeys_linkElements (lr : LeftRecursion) (es : List Element) :
    Element.listKeys (lr.linkElements es).2 = Element.listKeys es ∧
      Element.listFormed (lr.linkElements es).2 = Element.listFormed es := by
  have hprimary := lr.sameKeys_linkPrimary
  have hoperators := sameKeys_linkOperators
  unfold linkElements
  split
  · exact ⟨rfl, rfl⟩
  · simp only [Element.listKeys, Element.listFormed, (hprimary _).keys, (hprimary _).formed]
    exact ⟨trivial, trivial⟩
  · simp only [Element.listKeys, Element.listFormed, (hprimary _).keys, (hprimary _).formed,
      (hoperators _ _).keys, (hoperators _ _).formed]
    exact ⟨trivial, trivial⟩

theorem keys_link (lr : LeftRecursion) (rule : RuleDef) :
    (lr.link rule).2.keys = rule.keys ∧ (lr.link rule).2.isFormed = rule.isFormed := by
  unfold link
  split
  · exact ⟨rfl, rfl⟩
  · next main others halts =>
    obtain ⟨elements, options, label, extent, info⟩ := main
    obtain ⟨hkeys, hformed⟩ := lr.listKeys_linkElements elements
    refine SameAlts.withAlts ?_
    rw [halts]
    refine ⟨?_, rfl, ?_⟩
    · rw [Alt.listKeys, Alt.listKeys, Alt.keys, Alt.keys, hkeys]
    · rw [Alt.listFormed, Alt.listFormed, Alt.isFormed, Alt.isFormed, hformed]

end LeftRecursion

theorem Grammar.keys_demandAny (names : List String) (rule : RuleDef) :
    (demandAny names rule).keys = rule.keys ∧ (demandAny names rule).isFormed = rule.isFormed :=
  (Alt.sameAlts_mapOptions _ rule.alts ()).withAlts

/-! ## Moving -/

mutual
theorem Element.isFormed_shift (offset : Nat) : ∀ e : Element,
    (e.shift offset).isFormed = e.isFormed
  | .block alts _ _ => by
      have halts := Alt.listFormed_shiftAll offset alts
      rw [Element.shift, Element.isFormed, Element.isFormed, halts]
      cases alts <;> rfl
  | .suffixed _ _ inner _ | .labeled _ _ _ inner _ | .not inner _ =>
      Element.isFormed_shift offset inner
  | .set elements _ => by
      rw [Element.shift, Element.isFormed, Element.isFormed]
      induction elements with
      | nil => rfl
      | cons e es ih =>
          rw [Element.shiftAll, List.all_cons, List.all_cons, ih]
          congr 1
          cases e <;> rfl
  | .ruleRef _ | .tokenRef _ _ _ | .quotation _ | .range _ _ _ | .wildcard _ _ | .action _
  | .predicate _ | .command _ _ _ | .epsilon _ => rfl

theorem Element.listFormed_shiftAll (offset : Nat) : ∀ es : List Element,
    Element.listFormed (Element.shiftAll offset es) = Element.listFormed es
  | [] => rfl
  | e :: es => by
      rw [Element.shiftAll, Element.listFormed, Element.listFormed, Element.isFormed_shift offset e,
        Element.listFormed_shiftAll offset es]

theorem Alt.listFormed_shiftAll (offset : Nat) : ∀ as : List Alt,
    Alt.listFormed (Alt.shiftAll offset as) = Alt.listFormed as
  | [] => rfl
  | ⟨elements, _, _, _, _⟩ :: as => by
      rw [Alt.shiftAll, Alt.listFormed, Alt.listFormed, Alt.listFormed_shiftAll offset as, Alt.shift,
        Alt.isFormed, Alt.isFormed, Element.listFormed_shiftAll offset elements]
end

theorem RuleDef.isFormed_shift (rule : RuleDef) (offset : Nat) :
    (rule.shift offset).isFormed = rule.isFormed := by
  have halts := Alt.listFormed_shiftAll offset rule.alts
  unfold RuleDef.isFormed
  rw [show (rule.shift offset).alts = Alt.shiftAll offset rule.alts from rfl, halts]
  cases rule.alts <;> rfl

end GrammarCompiler
