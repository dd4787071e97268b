import GrammarCompiler.Ast.Shift
import GrammarCompiler.Proofs.Ast.Proper

/-!
# What is listed of elements

Changing the options of elements, moving elements to other tokens and copying elements keeps the
order in which they are listed. So whatever is read off each element alone, and does not hang on what
is changed, is read off a changed element or a copy just like before (`Element.filterMap_mapOptions`,
`Element.filterMap_shift`, `Element.filterMap_recast`).
-/

namespace GrammarCompiler

variable {α : Type}

theorem filterMap_cons_congr {β : Type} {view view' : β → Option α} {b c : β} {bs cs : List β}
    (h : view b = view' c) (h' : bs.filterMap view = cs.filterMap view') :
    (b :: bs).filterMap view = (c :: cs).filterMap view' := by
  rw [List.filterMap_cons, List.filterMap_cons, h, h']

theorem Alt.listNodes_eq_flatMap (as : List Alt) : Alt.listNodes as = as.flatMap Alt.nodes := by
  induction as with
  | nil => rfl
  | cons a as ih => rw [Alt.listNodes, ih, List.flatMap_cons]

theorem Alt.nodes_subset_of_mem {alt : Alt} {alts : List Alt} (h : alt ∈ alts) :
    Element.listNodes alt.elements ⊆ Alt.listNodes alts := by
  rw [Alt.listNodes_eq_flatMap, ← Alt.nodes_eq]
  exact fun node hnode => List.mem_flatMap.mpr ⟨alt, h, hnode⟩

/-! ## Options -/

section MapOptions

variable {σ : Type} {f : σ → Element → σ × Options} {view view' : Element → Option α}

mutual
theorem Element.filterMap_mapOptions (h : ∀ e s, view (e.mapOptions f s).2 = view' e) :
    ∀ (e : Element) (s : σ),
    (e.mapOptions f s).2.nodes.filterMap view = e.nodes.filterMap view'
  | .block alts o extent, s =>
      filterMap_cons_congr (h (.block alts o extent) s) (Alt.filterMap_mapListOptions h alts _)
  | .not operand extent, s =>
      filterMap_cons_congr (h (.not operand extent) s) (Element.filterMap_mapOptions h operand _)
  | .set elements extent, s =>
      filterMap_cons_congr (h (.set elements extent) s) (Element.filterMap_mapListOptions h elements _)
  | .suffixed suffix greedy inner extent, s =>
      filterMap_cons_congr (h (.suffixed suffix greedy inner extent) s)
        (Element.filterMap_mapOptions h inner _)
  | .labeled isList label token inner extent, s =>
      filterMap_cons_congr (h (.labeled isList label token inner extent) s)
        (Element.filterMap_mapOptions h inner _)
  | .ruleRef r, s => filterMap_cons_congr (h (.ruleRef r) s) rfl
  | .tokenRef name o extent, s => filterMap_cons_congr (h (.tokenRef name o extent) s) rfl
  | .quotation q, s => filterMap_cons_congr (h (.quotation q) s) rfl
  | .range first last extent, s => filterMap_cons_congr (h (.range first last extent) s) rfl
  | .wildcard o extent, s => filterMap_cons_congr (h (.wildcard o extent) s) rfl
  | .action code, s => filterMap_cons_congr (h (.action code) s) rfl
  | .predicate code, s => filterMap_cons_congr (h (.predicate code) s) rfl
  | .command name arg extent, s => filterMap_cons_congr (h (.command name arg extent) s) rfl
  | .epsilon extent, s => filterMap_cons_congr (h (.epsilon extent) s) rfl

theorem Element.filterMap_mapListOptions (h : ∀ e s, view (e.mapOptions f s).2 = view' e) :
    ∀ (es : List Element) (s : σ),
    (Element.listNodes (Element.mapListOptions f s es).2).filterMap view =
      (Element.listNodes es).filterMap view'
  | [], _ => rfl
  | e :: es, s => by
      rw [Element.mapListOptions, Element.listNodes, Element.listNodes, List.filterMap_append,
        List.filterMap_append, Element.filterMap_mapOptions h e, Element.filterMap_mapListOptions h es]

theorem Alt.filterMap_mapListOptions (h : ∀ e s, view (e.mapOptions f s).2 = view' e) :
    ∀ (as : List Alt) (s : σ),
    (Alt.listNodes (Alt.mapListOptions f s as).2).filterMap view =
      (Alt.listNodes as).filterMap view'
  | [], _ => rfl
  | ⟨elements, _, _, _, _⟩ :: as, s => by
      rw [Alt.mapListOptions, Alt.listNodes, Alt.listNodes, List.filterMap_append,
        List.filterMap_append, Alt.filterMap_mapListOptions h as]
      exact congrArg (· ++ _) (Element.filterMap_mapListOptions h elements s)
end

theorem Alt.filterMap_mapOptions (h : ∀ e s, view (e.mapOptions f s).2 = view' e) :
    ∀ (a : Alt) (s : σ), (a.mapOptions f s).2.nodes.filterMap view = a.nodes.filterMap view' := by
  intro a s
  obtain ⟨elements, options, label, extent, info⟩ := a
  exact Element.filterMap_mapListOptions h elements s

end MapOptions

/-! ## Moves -/

section Shift

variable {offset : Nat} {view : Element → Option α}

mutual
theorem Element.filterMap_shift (h : ∀ e : Element, view (e.shift offset) = view e) :
    ∀ e : Element, (e.shift offset).nodes.filterMap view = e.nodes.filterMap view
  | .block alts o extent =>
      filterMap_cons_congr (h (.block alts o extent)) (Alt.filterMap_shiftAll h alts)
  | .not operand extent =>
      filterMap_cons_congr (h (.not operand extent)) (Element.filterMap_shift h operand)
  | .set elements extent =>
      filterMap_cons_congr (h (.set elements extent)) (Element.filterMap_shiftAll h elements)
  | .suffixed suffix greedy inner extent =>
      filterMap_cons_congr (h (.suffixed suffix greedy inner extent)) (Element.filterMap_shift h inner)
  | .labeled isList label token inner extent =>
      filterMap_cons_congr (h (.labeled isList label token inner extent))
        (Element.filterMap_shift h inner)
  | .ruleRef r => filterMap_cons_congr (h (.ruleRef r)) rfl
  | .tokenRef name o extent => filterMap_cons_congr (h (.tokenRef name o extent)) rfl
  | .quotation q => filterMap_cons_congr (h (.quotation q)) rfl
  | .range first last extent => filterMap_cons_congr (h (.range first last extent)) rfl
  | .wildcard o extent => filterMap_cons_congr (h (.wildcard o extent)) rfl
  | .action code => filterMap_cons_congr (h (.action code)) rfl
  | .predicate code => filterMap_cons_congr (h (.predicate code)) rfl
  | .command name arg extent => filterMap_cons_congr (h (.command name arg extent)) rfl
  | .epsilon extent => filterMap_cons_congr (h (.epsilon extent)) rfl

theorem Element.filterMap_shiftAll (h : ∀ e : Element, view (e.shift offset) = view e) :
    ∀ es : List Element,
    (Element.listNodes (Element.shiftAll offset es)).filterMap view =
      (Element.listNodes es).filterMap view
  | [] => rfl
  | e :: es => by
      rw [Element.shiftAll, Element.listNodes, Element.listNodes, List.filterMap_append,
        List.filterMap_append, Element.filterMap_shift h e, Element.filterMap_shiftAll h es]

theorem Alt.filterMap_shiftAll (h : ∀ e : Element, view (e.shift offset) = view e) :
    ∀ as : List Alt,
    (Alt.listNodes (Alt.shiftAll offset as)).filterMap view = (Alt.listNodes as).filterMap view
  | [] => rfl
  | ⟨elements, _, _, _, _⟩ :: as => by
      rw [Alt.shiftAll, Alt.listNodes, Alt.listNodes, List.filterMap_append, List.filterMap_append,
        Alt.filterMap_shiftAll h as]
      exact congrArg (· ++ _) (Element.filterMap_shiftAll h elements)
end

end Shift

/-! ## Copies -/

section Recast

variable {f : Element → List (String × String)} {g : Options → List (String × String)}
  {view view' : Element → Option α}

mutual
theorem Element.filterMap_recast (h : ∀ e, view (e.recast f g) = view' e) :
    ∀ e : Element,
    (e.recast f g).nodes.filterMap view = e.nodes.filterMap view'
  | .block alts o extent =>
      filterMap_cons_congr (h (.block alts o extent)) (Alt.filterMap_allRecast h alts)
  | .not operand extent =>
      filterMap_cons_congr (h (.not operand extent)) (Element.filterMap_recast h operand)
  | .set elements extent =>
      filterMap_cons_congr (h (.set elements extent)) (Element.filterMap_allRecast h elements)
  | .suffixed suffix greedy inner extent =>
      filterMap_cons_congr (h (.suffixed suffix greedy inner extent)) (Element.filterMap_recast h inner)
  | .labeled isList label token inner extent =>
      filterMap_cons_congr (h (.labeled isList label token inner extent))
        (Element.filterMap_recast h inner)
  | .ruleRef r => filterMap_cons_congr (h (.ruleRef r)) rfl
  | .tokenRef name o extent => filterMap_cons_congr (h (.tokenRef name o extent)) rfl
  | .quotation q => filterMap_cons_congr (h (.quotation q)) rfl
  | .range first last extent => filterMap_cons_congr (h (.range first last extent)) rfl
  | .wildcard o extent => filterMap_cons_congr (h (.wildcard o extent)) rfl
  | .action code => filterMap_cons_congr (h (.action code)) rfl
  | .predicate code => filterMap_cons_congr (h (.predicate code)) rfl
  | .command name arg extent => filterMap_cons_congr (h (.command name arg extent)) rfl
  | .epsilon extent => filterMap_cons_congr (h (.epsilon extent)) rfl

theorem Element.filterMap_allRecast (h : ∀ e, view (e.recast f g) = view' e) :
    ∀ es : List Element,
    (Element.listNodes (Element.allRecast f g es)).filterMap view =
      (Element.listNodes es).filterMap view'
  | [] => rfl
  | e :: es => by
      rw [Element.allRecast, Element.listNodes, Element.listNodes, List.filterMap_append,
        List.filterMap_append, Element.filterMap_recast h e, Element.filterMap_allRecast h es]

theorem Alt.filterMap_allRecast (h : ∀ e, view (e.recast f g) = view' e) :
    ∀ as : List Alt,
    (Alt.listNodes (Alt.allRecast f g as)).filterMap view = (Alt.listNodes as).filterMap view'
  | [] => rfl
  | ⟨elements, _, _, _, _⟩ :: as => by
      rw [Alt.allRecast, Alt.listNodes, Alt.listNodes, List.filterMap_append, List.filterMap_append,
        Alt.filterMap_allRecast h as]
      exact congrArg (· ++ _) (Element.filterMap_allRecast h elements)
end

end Recast

end GrammarCompiler
