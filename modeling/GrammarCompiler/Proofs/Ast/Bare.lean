import GrammarCompiler.Proofs.Ast.Copied

/-!
# Elements without their options

What is left of an element when its places and all options are taken away (`Element.bare`) is what
stands in the text about what it matches. Neither a change of options nor a copy makes a difference.

Less is lost if only those options are taken away that tell where an element came from or what it demands,
and those of alternatives (`Element.allPlain`): a copy keeps the others as well.
-/

namespace GrammarCompiler

/-- An element without places and options. -/
def Element.bare (e : Element) : Element :=
  e.recast (fun _ => []) fun _ => []

def Element.allBare (es : List Element) : List Element :=
  Element.allRecast (fun _ => []) (fun _ => []) es

def Alt.bare (a : Alt) : Alt :=
  a.recast (fun _ => []) fun _ => []

def Alt.allBare (as : List Alt) : List Alt :=
  Alt.allRecast (fun _ => []) (fun _ => []) as

theorem Element.allBare_eq_map (es : List Element) : Element.allBare es = es.map Element.bare :=
  Element.allRecast_eq_map _ _ es

theorem Element.mem_allBare {bare : Element} {es : List Element} :
    bare ∈ Element.allBare es ↔ ∃ e ∈ es, e.bare = bare := by
  rw [Element.allBare_eq_map]
  exact List.mem_map

theorem Element.exists_of_allBare {es fs : List Element} (h : Element.allBare es = Element.allBare fs)
    {f : Element} (hf : f ∈ fs) : ∃ e ∈ es, e.bare = f.bare :=
  Element.mem_allBare.mp (h ▸ Element.mem_allBare.mpr ⟨f, hf, rfl⟩)

theorem Element.allBare_eq_cons {e : Element} {es fs : List Element}
    (h : Element.allBare fs = Element.allBare (e :: es)) :
    ∃ f rest, fs = f :: rest ∧ f.bare = e.bare ∧ Element.allBare rest = Element.allBare es := by
  cases fs with
  | nil => cases h
  | cons f rest => exact ⟨f, rest, rfl, (List.cons.inj h).1, (List.cons.inj h).2⟩

theorem Alt.exists_of_allBare {as bs : List Alt} (h : Alt.allBare as = Alt.allBare bs) {a : Alt}
    (ha : a ∈ as) : ∃ b ∈ bs, Element.allBare a.elements = Element.allBare b.elements := by
  rw [Alt.allBare, Alt.allBare, Alt.allRecast_eq_map, Alt.allRecast_eq_map] at h
  obtain ⟨b, hb, hsame⟩ := List.mem_map.mp (h ▸ List.mem_map_of_mem ha)
  obtain ⟨elements, options, label, extent, info⟩ := a
  obtain ⟨elements', options', label', extent', info'⟩ := b
  exact ⟨_, hb, (Alt.mk.inj hsame).1.symm⟩

/-! ## Recasting twice -/

section Recast

variable {f f' f'' : Element → List (String × String)} {g g' g'' : Options → List (String × String)}

/-- Whether what `f'` and `g'` tell of what is recast by `f` and `g` is what `f''` and `g''` tell of it
beforehand. -/
structure Retells (f : Element → List (String × String)) (g : Options → List (String × String))
    (f' : Element → List (String × String)) (g' : Options → List (String × String))
    (f'' : Element → List (String × String)) (g'' : Options → List (String × String)) : Prop where
  own : ∀ e : Element, f' (e.recast f g) = f'' e
  alts : ∀ options, g' (.ofEntries (g options)) = g'' options

mutual
theorem Element.recast_recast (h : Retells f g f' g' f'' g'') :
    ∀ e : Element, (e.recast f g).recast f' g' = e.recast f'' g''
  | .block alts options extent => by
      have hown := h.own (.block alts options extent)
      rw [Element.recast, Element.recast, Element.recast, Alt.allRecast_allRecast h alts]
      exact congrArg (fun entries => Element.block _ (.ofEntries entries) .nowhere) hown
  | .not operand _ => congrArg (Element.not · .nowhere) (Element.recast_recast h operand)
  | .set elements _ => congrArg (Element.set · .nowhere) (Element.allRecast_allRecast h elements)
  | .suffixed suffix greedy element _ =>
      congrArg (Element.suffixed suffix greedy · .nowhere) (Element.recast_recast h element)
  | .labeled isList label _ element _ =>
      congrArg (Element.labeled isList label 0 · .nowhere) (Element.recast_recast h element)
  | .ruleRef ⟨name, args, options, extent⟩ => by
      have hown := h.own (.ruleRef ⟨name, args, options, extent⟩)
      cases args <;>
        exact congrArg (fun entries => Element.ruleRef ⟨name, _, .ofEntries entries, .nowhere⟩) hown
  | .tokenRef name options extent =>
      congrArg (fun entries => Element.tokenRef name (.ofEntries entries) .nowhere)
        (h.own (.tokenRef name options extent))
  | .quotation literal =>
      congrArg (fun entries => Element.quotation ⟨_, _, .ofEntries entries, .nowhere⟩)
        (h.own (.quotation literal))
  | .wildcard options extent =>
      congrArg (fun entries => Element.wildcard (.ofEntries entries) .nowhere)
        (h.own (.wildcard options extent))
  | .predicate code =>
      congrArg (fun entries => Element.predicate ⟨_, .ofEntries entries, .nowhere⟩) (h.own (.predicate code))
  | .range .. | .action _ | .command .. | .epsilon _ => rfl

theorem Element.allRecast_allRecast (h : Retells f g f' g' f'' g'') : ∀ es : List Element,
    Element.allRecast f' g' (Element.allRecast f g es) = Element.allRecast f'' g'' es
  | [] => rfl
  | e :: es => congrArg₂ List.cons (Element.recast_recast h e) (Element.allRecast_allRecast h es)

theorem Alt.recast_recast (h : Retells f g f' g' f'' g'') :
    ∀ a : Alt, (a.recast f g).recast f' g' = a.recast f'' g''
  | ⟨elements, options, label, extent, info⟩ => by
      rw [Alt.recast, Alt.recast, Alt.recast, Element.allRecast_allRecast h elements, h.alts]
      cases label <;> rfl

theorem Alt.allRecast_allRecast (h : Retells f g f' g' f'' g'') : ∀ as : List Alt,
    Alt.allRecast f' g' (Alt.allRecast f g as) = Alt.allRecast f'' g'' as
  | [] => rfl
  | a :: as => congrArg₂ List.cons (Alt.recast_recast h a) (Alt.allRecast_allRecast h as)
end

end Recast

theorem Element.allBare_recast (f : Element → List (String × String))
    (g : Options → List (String × String)) (es : List Element) :
    Element.allBare (Element.allRecast f g es) = Element.allBare es :=
  Element.allRecast_allRecast ⟨fun _ => rfl, fun _ => rfl⟩ es

/-! ## Changes of options -/

section MapOptions

variable {σ : Type} {c : σ → Element → σ × Options} {f : Element → List (String × String)}

/-- Whether a change of options makes no difference to what is told of elements. -/
def Unseen (c : σ → Element → σ × Options) (f : Element → List (String × String)) : Prop :=
  ∀ (e : Element) (s : σ), f (e.mapOptions c s).2 = f e

variable (g : Options → List (String × String))

mutual
theorem Element.recast_mapOptions (h : Unseen c f) : ∀ (e : Element) (s : σ),
    (e.mapOptions c s).2.recast f g = e.recast f g
  | .block alts options extent, s => by
      have hown := h (.block alts options extent) s
      rw [Element.mapOptions] at hown ⊢
      rw [Element.recast, Element.recast, Alt.allRecast_mapOptions h alts]
      exact congrArg (fun entries => Element.block _ (.ofEntries entries) .nowhere) hown
  | .not operand _, _ => congrArg (Element.not · .nowhere) (Element.recast_mapOptions h operand _)
  | .set elements _, _ => congrArg (Element.set · .nowhere) (Element.allRecast_mapOptions h elements _)
  | .suffixed suffix greedy element _, _ =>
      congrArg (Element.suffixed suffix greedy · .nowhere) (Element.recast_mapOptions h element _)
  | .labeled isList label _ element _, _ =>
      congrArg (Element.labeled isList label 0 · .nowhere) (Element.recast_mapOptions h element _)
  | .ruleRef ref, s =>
      congrArg (fun entries => Element.ruleRef ⟨ref.name, _, .ofEntries entries, .nowhere⟩)
        (h (.ruleRef ref) s)
  | .tokenRef name options extent, s =>
      congrArg (fun entries => Element.tokenRef name (.ofEntries entries) .nowhere)
        (h (.tokenRef name options extent) s)
  | .quotation literal, s =>
      congrArg (fun entries => Element.quotation ⟨_, _, .ofEntries entries, .nowhere⟩)
        (h (.quotation literal) s)
  | .wildcard options extent, s =>
      congrArg (fun entries => Element.wildcard (.ofEntries entries) .nowhere)
        (h (.wildcard options extent) s)
  | .predicate code, s =>
      congrArg (fun entries => Element.predicate ⟨_, .ofEntries entries, .nowhere⟩)
        (h (.predicate code) s)
  | .range .., _ | .action _, _ | .command .., _ | .epsilon _, _ => rfl

theorem Element.allRecast_mapOptions (h : Unseen c f) : ∀ (es : List Element) (s : σ),
    Element.allRecast f g (Element.mapListOptions c s es).2 = Element.allRecast f g es
  | [], _ => rfl
  | e :: es, s =>
      congrArg₂ List.cons (Element.recast_mapOptions h e s) (Element.allRecast_mapOptions h es _)

theorem Alt.recast_mapOptions (h : Unseen c f) :
    ∀ (a : Alt) (s : σ), (a.mapOptions c s).2.recast f g = a.recast f g
  | ⟨elements, _, _, _, _⟩, s => congrArg (Alt.mk · _ _ _ _) (Element.allRecast_mapOptions h elements s)

theorem Alt.allRecast_mapOptions (h : Unseen c f) : ∀ (as : List Alt) (s : σ),
    Alt.allRecast f g (Alt.mapListOptions c s as).2 = Alt.allRecast f g as
  | [], _ => rfl
  | a :: as, s => congrArg₂ List.cons (Alt.recast_mapOptions h a s) (Alt.allRecast_mapOptions h as _)
end

end MapOptions

theorem Element.allBare_mapOptions {σ : Type} (c : σ → Element → σ × Options) (es : List Element) (s : σ) :
    Element.allBare (Element.mapListOptions c s es).2 = Element.allBare es :=
  Element.allRecast_mapOptions _ (fun _ _ => rfl) es s

/-! ## Elements without the options of copies -/

/-- The options of an element that tell neither where it came from nor what it demands. -/
def Element.plainEntries (e : Element) : List (String × String) :=
  e.ownOptions.entries.filter fun entry => entry.1 != tokenIndexOption && entry.1 != precedenceOption

/-- Elements without places, without options that tell where they came from or what they demand, and
without the options of alternatives. -/
def Element.allPlain (es : List Element) : List Element :=
  Element.allRecast Element.plainEntries (fun _ => []) es

theorem Element.allBare_allPlain (es : List Element) :
    Element.allBare (Element.allPlain es) = Element.allBare es :=
  Element.allBare_recast _ _ es

theorem Element.plainEntries_unplaced (e : Element) : e.unplaced.plainEntries = e.plainEntries := by
  cases e <;> rfl

theorem Element.allPlain_unplaced (es : List Element) :
    Element.allPlain (Element.allUnplaced es) = Element.allPlain es :=
  Element.allRecast_allRecast ⟨Element.plainEntries_unplaced, fun _ => rfl⟩ es

theorem Element.filter_marks (e : Element) :
    e.marks.filter (fun entry => entry.1 != tokenIndexOption && entry.1 != precedenceOption) =
      e.plainEntries := by
  have hothers : (e.ownOptions.entries.filter (·.1 != tokenIndexOption)).filter
      (fun entry => entry.1 != tokenIndexOption && entry.1 != precedenceOption) = e.plainEntries := by
    rw [List.filter_filter]
    exact List.filter_congr fun entry _ => by cases entry.1 != tokenIndexOption <;> simp
  unfold Element.marks
  rw [List.filter_append, hothers]
  cases e <;> rfl

theorem Element.plainEntries_copied (e : Element) : e.copied.plainEntries = e.plainEntries := by
  rw [← e.filter_marks]
  cases e <;> first | rfl | exact (Element.filter_marks _).symm

theorem Element.allPlain_copied (es : List Element) :
    Element.allPlain (Element.allCopied es) = Element.allPlain es :=
  Element.allRecast_allRecast ⟨Element.plainEntries_copied, fun _ => rfl⟩ es

end GrammarCompiler
