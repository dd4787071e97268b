import GrammarCompiler.Proofs.Ast.Descent
import GrammarCompiler.Recursion.Analysis

/-!
# Which tokens are skipped and marked

Whether a token is skipped and which element it begins is decided over all elements of an alternative
at once. Only what stands around a token matters for it: the options and references of a part stand
among the tokens of the part (`Element.Spelled.inside`), so that what guides the replay of all tokens
guides the replay of a part by the part alone (`Guide.narrow`).
-/

namespace GrammarCompiler

open TokenTree (leaf group widths)

/-- Where options stand that are left out: those of an element, and those of the alternatives of a
block. -/
def Element.skippedExtents : Element → List Extent
  | .ruleRef r => r.options.extent.toList
  | .tokenRef _ o _ => o.extent.toList
  | .quotation q => q.options.extent.toList
  | .wildcard o _ => o.extent.toList
  | .block alts _ _ => alts.flatMap fun a => a.options.extent.toList
  | _ => []

/-- Where options stand that are left out of elements. -/
def skippedIn (nodes : List Element) : List Extent :=
  nodes.flatMap Element.skippedExtents

theorem Alt.optionExtents_eq (alt : Alt) :
    alt.optionExtents = alt.options.extent.toList ++ skippedIn alt.nodes := rfl

@[simp]
theorem skippedIn_nil : skippedIn [] = [] := rfl

@[simp]
theorem skippedIn_cons (e : Element) (nodes : List Element) :
    skippedIn (e :: nodes) = e.skippedExtents ++ skippedIn nodes := rfl

@[simp]
theorem skippedIn_append (nodes others : List Element) :
    skippedIn (nodes ++ others) = skippedIn nodes ++ skippedIn others :=
  List.flatMap_append

/-! ## Where parts stand -/

/-- Whether options that are left out and elements that are marked stand among `n` tokens from `i`
on. -/
structure Inside (i n : Nat) (spans : List Extent) (nodes : List Element) : Prop where
  spans : ∀ x ∈ spans, i ≤ x.start ∧ x.stop < i + n
  starts : ∀ e ∈ nodes, e.isReplayed = true → i ≤ e.extent.start ∧ e.extent.start < i + n

namespace Inside

variable {i n j m : Nat} {spans spans' : List Extent} {nodes nodes' : List Element}

theorem nil (i n : Nat) : Inside i n [] [] :=
  ⟨fun _ hx => absurd hx List.not_mem_nil, fun _ he => absurd he List.not_mem_nil⟩

theorem widen (h : Inside j m spans nodes) (hi : i ≤ j) (hn : j + m ≤ i + n) :
    Inside i n spans nodes := by
  refine ⟨fun x hx => ?_, fun e he hreplayed => ?_⟩
  · have := h.spans x hx
    omega
  · have := h.starts e he hreplayed
    omega

theorem append (h : Inside i n spans nodes) (h' : Inside i n spans' nodes') :
    Inside i n (spans ++ spans') (nodes ++ nodes') :=
  ⟨fun x hx => (List.mem_append.mp hx).elim (h.spans x) (h'.spans x),
    fun e he => (List.mem_append.mp he).elim (h.starts e) (h'.starts e)⟩

theorem subset (h : Inside i n spans nodes) (hspans : spans' ⊆ spans) (hnodes : nodes' ⊆ nodes) :
    Inside i n spans' nodes' :=
  ⟨fun x hx => h.spans x (hspans hx), fun e he => h.starts e (hnodes he)⟩

/-- An element that is not marked. -/
theorem cons (h : Inside i n spans nodes) {e : Element} (he : e.isReplayed = false) :
    Inside i n spans (e :: nodes) := by
  refine ⟨h.spans, fun x hx hreplayed => ?_⟩
  rcases List.mem_cons.mp hx with rfl | hx
  · rw [he] at hreplayed
    cases hreplayed
  · exact h.starts x hx hreplayed

end Inside

/-- Options stand among their trees. -/
theorem Options.Spelled.inside {options : Options} {i : Nat} {ts : List TokenTree}
    (h : options.Spelled i ts) :
    ∀ x ∈ options.extent.toList, i ≤ x.start ∧ x.stop < i + widths ts := by
  intro x hx
  have hx := Option.mem_toList.mp hx
  rcases h.extent_eq with ⟨-, hnone⟩ | ⟨hne, hsome⟩
  · rw [hnone] at hx
    cases hx
  · rw [hsome] at hx
    obtain rfl := Option.some.inj hx
    have := widths_pos hne
    simp only [Extent.across]
    omega

section Mapped

variable {σ : Type} {f : σ → Element → σ × Options}

theorem Element.mapListOptions_cons (e : Element) (es : List Element) (s : σ) :
    (Element.mapListOptions f s (e :: es)).2 =
      (e.mapOptions f s).2 :: (Element.mapListOptions f (e.mapOptions f s).1 es).2 := rfl

theorem Alt.mapListOptions_nil (s : σ) : (Alt.mapListOptions f s []).2 = [] := rfl

theorem Alt.mapListOptions_cons (a : Alt) (as : List Alt) (s : σ) :
    (Alt.mapListOptions f s (a :: as)).2 =
      (a.mapOptions f s).2 :: (Alt.mapListOptions f (a.mapOptions f s).1 as).2 := rfl

/-- An element that is a token with options behind it. -/
theorem inside_reference {e : Element} {options : Options} {i k : Nat} {ts : List TokenTree}
    {n : Nat} (h : options.Spelled k ts) (hskipped : e.skippedExtents = options.extent.toList)
    (hstart : e.extent.start = i) (hik : i < k) (hn : k + widths ts = i + n) :
    Inside i n (skippedIn [e]) [e] := by
  refine ⟨fun x hx => ?_, fun x hx _ => ?_⟩
  · rw [skippedIn_cons, skippedIn_nil, List.append_nil, hskipped] at hx
    have := h.inside x hx
    omega
  · obtain rfl := List.mem_singleton.mp hx
    omega

mutual
/-- What is left out of an element and marked in it stands among its tokens, whatever options it is
given. -/
theorem Element.Spelled.inside (hf : ∀ s e, (f s e).2.extent = e.ownOptions.extent) :
    ∀ (e : Element) (s : σ) {i : Nat} {ts : List TokenTree}, e.Spelled i ts →
      Inside i (widths ts) (skippedIn (e.mapOptions f s).2.nodes) (e.mapOptions f s).2.nodes
  | .block alts options extent, s, i, ts, h => by
      rw [Element.Spelled] at h
      obtain ⟨-, -, opened, closed, body, rfl, halts⟩ := h
      exact ((Alt.AllSpelled.inside hf alts _ halts).widen (by omega) (by simp; omega)).cons rfl
  | .ruleRef r, s, i, ts, h => by
      rw [Element.Spelled] at h
      obtain ⟨-, hextent, -, p, args, options, rfl, -, hoptions⟩ := h
      refine inside_reference (n := widths _) hoptions ?_ ?_ (by omega) (by simp; omega)
      · exact congrArg Option.toList (hf s _)
      · exact congrArg Extent.start hextent
  | .tokenRef name options extent, s, i, ts, h => by
      rw [Element.Spelled] at h
      obtain ⟨-, rfl, p, rest, rfl, hoptions⟩ := h
      exact inside_reference (n := widths _) hoptions (congrArg Option.toList (hf s _)) rfl
        (by omega) (by simp; omega)
  | .quotation literal, s, i, ts, h => by
      rw [Element.Spelled] at h
      obtain ⟨hextent, t, rest, rfl, ⟨-, -, p, rfl⟩, hoptions⟩ := h
      refine inside_reference (n := widths _) hoptions ?_ ?_ (by omega) (by simp; omega)
      · exact congrArg Option.toList (hf s _)
      · exact congrArg Extent.start hextent
  | .wildcard options extent, s, i, ts, h => by
      rw [Element.Spelled] at h
      obtain ⟨rfl, joint, p, rest, rfl, hoptions⟩ := h
      exact inside_reference (n := widths _) hoptions (congrArg Option.toList (hf s _)) rfl
        (by omega) (by simp; omega)
  | .not operand extent, s, i, ts, h => by
      rw [Element.Spelled] at h
      obtain ⟨-, -, joint, p, rest, rfl, hoperand⟩ := h
      exact ((Element.Spelled.inside hf operand _ hoperand).widen (by omega) (by simp; omega)).cons rfl
  | .set elements extent, s, i, ts, h => by
      rw [Element.Spelled] at h
      obtain ⟨-, opened, closed, body, rfl, helements⟩ := h
      exact ((Element.SetSpelled.inside hf elements _ helements).widen (by omega)
        (by simp; omega)).cons rfl
  | .suffixed suffix greedy element extent, s, i, ts, h => by
      rw [Element.Spelled] at h
      obtain ⟨-, -, front, back, rfl, helement, -⟩ := h
      exact ((Element.Spelled.inside hf element _ helement).widen (by omega) (by simp)).cons rfl
  | .labeled isList label token element extent, s, i, ts, h => by
      rw [Element.Spelled] at h
      obtain ⟨-, -, -, p, sign, rest, rfl, -, helement⟩ := h
      exact ((Element.Spelled.inside hf element _ helement).widen (by omega)
        (by simp; omega)).cons rfl
  | .range _ _ _, _, _, _, _ | .action _, _, _, _, _ | .predicate _, _, _, _, _
  | .command _ _ _, _, _, _, _ | .epsilon _, _, _, _, _ => (Inside.nil _ _).cons rfl

theorem Element.ListSpelled.inside (hf : ∀ s e, (f s e).2.extent = e.ownOptions.extent) :
    ∀ (es : List Element) (s : σ) {i : Nat} {ts : List TokenTree}, Element.ListSpelled i ts es →
      Inside i (widths ts) (skippedIn (Element.listNodes (Element.mapListOptions f s es).2))
        (Element.listNodes (Element.mapListOptions f s es).2)
  | [], _, _, _, _ => .nil _ _
  | e :: es, s, i, ts, h => by
      rw [Element.ListSpelled] at h
      obtain ⟨front, back, rfl, he, -, hes⟩ := h
      rw [Element.mapListOptions_cons, Element.listNodes, skippedIn_append]
      exact ((Element.Spelled.inside hf e _ he).widen (by omega) (by simp)).append
        ((Element.ListSpelled.inside hf es _ hes).widen (by omega) (by simp; omega))

theorem Element.SetSpelled.inside (hf : ∀ s e, (f s e).2.extent = e.ownOptions.extent) :
    ∀ (es : List Element) (s : σ) {i : Nat} {ts : List TokenTree}, Element.SetSpelled i ts es →
      Inside i (widths ts) (skippedIn (Element.listNodes (Element.mapListOptions f s es).2))
        (Element.listNodes (Element.mapListOptions f s es).2)
  | [], _, _, _, _ => .nil _ _
  | e :: es, s, i, ts, h => by
      rw [Element.SetSpelled] at h
      obtain ⟨-, front, back, rfl, he, hrest⟩ := h
      rw [Element.mapListOptions_cons, Element.listNodes, skippedIn_append]
      refine ((Element.Spelled.inside hf e _ he).widen (by omega) (by simp)).append ?_
      rcases hrest with ⟨rfl, rfl⟩ | ⟨joint, p, rest, rfl, hes⟩
      · exact .nil _ _
      · exact (Element.SetSpelled.inside hf es _ hes).widen (by omega) (by simp; omega)

theorem Alt.Spelled.inside (hf : ∀ s e, (f s e).2.extent = e.ownOptions.extent) :
    ∀ (a : Alt) (s : σ) {i : Nat} {ts : List TokenTree}, a.Spelled i ts →
      Inside i (widths ts) ((a.mapOptions f s).2.optionExtents) (a.mapOptions f s).2.nodes
  | ⟨elements, options, label, extent, info⟩, s, i, ts, h => by
      rw [Alt.Spelled] at h
      obtain ⟨-, front, body, back, rfl, hoptions, -, -, hbody⟩ := h
      rw [Alt.optionExtents_eq]
      refine Inside.append (show Inside _ _ _ [] from ⟨fun x hx => ?_, nofun⟩) ?_
      · have := hoptions.inside x hx
        simp
        omega
      · rcases hbody with ⟨-, rfl⟩ | ⟨-, -, hes⟩
        · exact (Inside.nil _ _).cons rfl
        · exact (Element.ListSpelled.inside hf elements s hes).widen (by omega) (by simp; omega)

theorem Alt.AllSpelled.inside (hf : ∀ s e, (f s e).2.extent = e.ownOptions.extent) :
    ∀ (as : List Alt) (s : σ) {i : Nat} {ts : List TokenTree}, Alt.AllSpelled i ts as →
      Inside i (widths ts)
        ((Alt.mapListOptions f s as).2.flatMap (fun a => a.options.extent.toList) ++
          skippedIn (Alt.listNodes (Alt.mapListOptions f s as).2))
        (Alt.listNodes (Alt.mapListOptions f s as).2)
  | [], _, _, _, _ => .nil _ _
  | a :: as, s, i, ts, h => by
      rw [Alt.AllSpelled] at h
      obtain ⟨front, back, rfl, ha, hrest⟩ := h
      have hfirst := (Alt.Spelled.inside hf a s ha).widen (i := i) (n := widths (front ++ back))
        (by omega) (by simp)
      rw [Alt.mapListOptions_cons, Alt.listNodes]
      rcases hrest with ⟨rfl, rfl⟩ | ⟨joint, p, rest, rfl, -, has⟩
      · rw [Alt.mapListOptions_nil, Alt.listNodes, List.append_nil]
        rw [List.append_nil] at hfirst ⊢
        refine hfirst.subset (fun x hx => ?_) (List.Subset.refl _)
        simpa [Alt.optionExtents_eq] using hx
      · have hothers := (Alt.AllSpelled.inside hf as (a.mapOptions f s).1 has).widen (i := i)
          (n := widths (front ++ leaf (.punct '|' joint) p :: rest)) (by omega) (by simp; omega)
        refine (hfirst.append hothers).subset (fun x hx => ?_) (List.Subset.refl _)
        simp only [List.flatMap_cons, skippedIn_append, List.mem_append, Alt.optionExtents_eq]
          at hx ⊢
        exact or_or_or_comm.mp hx
end

end Mapped

/-! ## What guides the replay of a part -/

/-- Whether, for `n` tokens from `i` on, only those in some extents are skipped, and only those that
some elements begin with are marked. -/
structure Guide (skips : Nat → Bool) (element? : Nat → Option Element) (i n : Nat)
    (spans : List Extent) (nodes : List Element) : Prop where
  skips_iff : ∀ j, i ≤ j → j < i + n → (skips j = true ↔ ∃ x ∈ spans, x.covers j = true)
  found : ∀ j e, i ≤ j → j < i + n → element? j = some e →
    e ∈ nodes ∧ e.isReplayed = true ∧ e.extent.start = j
  isSome : ∀ e ∈ nodes, e.isReplayed = true → i ≤ e.extent.start → e.extent.start < i + n →
    (element? e.extent.start).isSome = true

theorem Extent.covers_iff {extent : Extent} {j : Nat} :
    extent.covers j = true ↔ extent.start ≤ j ∧ j ≤ extent.stop := by
  simp [Extent.covers]

/-- What guides the replay of an alternative. -/
theorem guide_optionExtents (alt : Alt) (i n : Nat) :
    Guide (fun i => alt.optionExtents.any (·.covers i))
      (fun i => (alt.nodes.filter Element.isReplayed).find? (·.extent.start == i)) i n
      alt.optionExtents alt.nodes where
  skips_iff _ _ _ := List.any_eq_true
  found j e _ _ he := by
    obtain ⟨hmem, hreplayed⟩ := List.mem_filter.mp (List.mem_of_find?_eq_some he)
    exact ⟨hmem, hreplayed, by simpa using List.find?_some he⟩
  isSome e he hreplayed _ _ := by
    rw [List.find?_isSome]
    exact ⟨e, List.mem_filter.mpr ⟨he, hreplayed⟩, by simp⟩

namespace Guide

variable {skips : Nat → Bool} {element? : Nat → Option Element} {i n i₁ n₁ i₂ n₂ j : Nat}
  {spans spans₁ spans₂ : List Extent} {nodes nodes₁ nodes₂ : List Element} {e : Element}

/-- A part is guided by what stands in it, if nothing else stands there. -/
theorem narrow (h : Guide skips element? i n spans nodes) (hi : i ≤ i₁) (hn : i₁ + n₁ ≤ i + n)
    (hspans : ∀ x ∈ spans₁, x ∈ spans) (hnodes : ∀ e ∈ nodes₁, e ∈ nodes)
    (hspans' : ∀ x ∈ spans, x ∈ spans₁ ∨ x.stop < i₁ ∨ i₁ + n₁ ≤ x.start)
    (hnodes' : ∀ e ∈ nodes, e.isReplayed = true →
      e ∈ nodes₁ ∨ e.extent.start < i₁ ∨ i₁ + n₁ ≤ e.extent.start) :
    Guide skips element? i₁ n₁ spans₁ nodes₁ := by
  refine ⟨fun j hj hj' => ?_, fun j e hj hj' he => ?_, fun e he hreplayed hj hj' => ?_⟩
  · rw [h.skips_iff j (by omega) (by omega)]
    constructor
    · rintro ⟨x, hx, hcovers⟩
      rcases hspans' x hx with hx | hx | hx
      · exact ⟨x, hx, hcovers⟩
      all_goals
        have := Extent.covers_iff.mp hcovers
        omega
    · rintro ⟨x, hx, hcovers⟩
      exact ⟨x, hspans x hx, hcovers⟩
  · obtain ⟨hmem, hreplayed, rfl⟩ := h.found j e (by omega) (by omega) he
    refine ⟨(hnodes' e hmem hreplayed).resolve_right ?_, hreplayed, rfl⟩
    omega
  · exact h.isSome e (hnodes e he) hreplayed (by omega) (by omega)

/-- Of two parts in a row each is guided by itself. -/
theorem split (h : Guide skips element? i n spans nodes) (h₁ : Inside i₁ n₁ spans₁ nodes₁)
    (h₂ : Inside i₂ n₂ spans₂ nodes₂) (hi : i ≤ i₁) (hbetween : i₁ + n₁ ≤ i₂)
    (hn : i₂ + n₂ ≤ i + n) (hspans : ∀ x, x ∈ spans ↔ x ∈ spans₁ ∨ x ∈ spans₂)
    (hnodes : ∀ e, e ∈ nodes ↔ e ∈ nodes₁ ∨ e ∈ nodes₂) :
    Guide skips element? i₁ n₁ spans₁ nodes₁ ∧ Guide skips element? i₂ n₂ spans₂ nodes₂ := by
  constructor
  · refine h.narrow hi (by omega) (fun x hx => (hspans x).mpr (.inl hx))
      (fun e he => (hnodes e).mpr (.inl he)) (fun x hx => ?_) (fun e he hreplayed => ?_)
    · rcases (hspans x).mp hx with hx | hx
      · exact .inl hx
      · have := h₂.spans x hx
        omega
    · rcases (hnodes e).mp he with he | he
      · exact .inl he
      · have := h₂.starts e he hreplayed
        omega
  · refine h.narrow (by omega) hn (fun x hx => (hspans x).mpr (.inr hx))
      (fun e he => (hnodes e).mpr (.inr he)) (fun x hx => ?_) (fun e he hreplayed => ?_)
    · rcases (hspans x).mp hx with hx | hx
      · have := h₁.spans x hx
        omega
      · exact .inl hx
    · rcases (hnodes e).mp he with he | he
      · have := h₁.starts e he hreplayed
        omega
      · exact .inl he

/-- The inner part of an element that is not marked itself. -/
theorem inner (h : Guide skips element? i n (skippedIn (e :: nodes)) (e :: nodes))
    (he : e.isReplayed = false) (hi : i ≤ i₁) (hn : i₁ + n₁ ≤ i + n) :
    Guide skips element? i₁ n₁ (e.skippedExtents ++ skippedIn nodes) nodes := by
  refine h.narrow hi hn (fun x hx => hx) (fun e he => List.mem_cons_of_mem _ he)
    (fun x hx => .inl hx) (fun x hx hreplayed => ?_)
  rcases List.mem_cons.mp hx with rfl | hx
  · rw [he] at hreplayed
    cases hreplayed
  · exact .inl hx

/-- A token at which nothing stands is neither skipped nor marked. -/
theorem plain (h : Guide skips element? i n spans nodes) (hinside : Inside i₁ n₁ spans nodes)
    (hj : i ≤ j) (hj' : j < i + n) (hapart : j < i₁ ∨ i₁ + n₁ ≤ j) :
    skips j = false ∧ element? j = none := by
  constructor
  · rw [Bool.eq_false_iff, ne_eq, h.skips_iff j hj hj']
    rintro ⟨x, hx, hcovers⟩
    have := hinside.spans x hx
    have := Extent.covers_iff.mp hcovers
    omega
  · cases he : element? j with
    | none => rfl
    | some e =>
        obtain ⟨hmem, hreplayed, rfl⟩ := h.found j e hj hj' he
        have := hinside.starts e hmem hreplayed
        omega

/-- What stands between two parts in a row is neither skipped nor marked. -/
theorem between (h : Guide skips element? i n spans nodes) (h₁ : Inside i₁ n₁ spans₁ nodes₁)
    (h₂ : Inside i₂ n₂ spans₂ nodes₂) (hi : i ≤ i₁) (hn : i₂ ≤ i + n)
    (hspans : ∀ x, x ∈ spans ↔ x ∈ spans₁ ∨ x ∈ spans₂)
    (hnodes : ∀ e, e ∈ nodes ↔ e ∈ nodes₁ ∨ e ∈ nodes₂) (hj : i₁ + n₁ ≤ j) (hj' : j < i₂) :
    skips j = false ∧ element? j = none := by
  have hnothing : Guide skips element? j 1 [] [] := by
    refine h.narrow (by omega) (by omega) (List.nil_subset spans) (List.nil_subset nodes)
      (fun x hx => .inr ?_) (fun e he hreplayed => .inr ?_)
    · rcases (hspans x).mp hx with hx | hx
      · have := h₁.spans x hx
        omega
      · have := h₂.spans x hx
        omega
    · rcases (hnodes e).mp he with he | he
      · have := h₁.starts e he hreplayed
        omega
      · have := h₂.starts e he hreplayed
        omega
  exact hnothing.plain (Inside.nil (j + 1) 0) (by omega) (by omega) (by omega)

/-- The one element that is marked. -/
theorem single (h : Guide skips element? i n (skippedIn [e]) [e]) (hreplayed : e.isReplayed = true)
    (hstart : e.extent.start = i) (hn : 0 < n)
    (hbehind : ∀ x ∈ e.skippedExtents, i < x.start) : skips i = false ∧ element? i = some e := by
  constructor
  · rw [Bool.eq_false_iff, ne_eq, h.skips_iff i (Nat.le_refl _) (by omega)]
    rintro ⟨x, hx, hcovers⟩
    rw [skippedIn_cons, skippedIn_nil, List.append_nil] at hx
    have := hbehind x hx
    have := Extent.covers_iff.mp hcovers
    omega
  · obtain ⟨x, hx⟩ := Option.isSome_iff_exists.mp
      (h.isSome e (List.mem_singleton_self e) hreplayed (by omega) (by omega))
    rw [hstart] at hx
    obtain ⟨hmem, -, -⟩ := h.found _ x (Nat.le_refl _) (by omega) hx
    rw [hx, List.mem_singleton.mp hmem]

end Guide

end GrammarCompiler
