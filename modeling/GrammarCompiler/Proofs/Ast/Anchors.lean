import GrammarCompiler.Proofs.Ast.Rules

/-!
# Tokens that elements begin with

An element with a suffix begins where the element under the suffix does, and an empty alternative
stands at the token behind it. Every other element begins with a token of its own: these tokens grow
in the order in which the elements of a rule are listed (`RuleDef.Spelled.anchors`).
-/

namespace GrammarCompiler

open TokenTree (leaf group widths)

/-- Whether an element begins with a token that none of its parts begins with. -/
def Element.isAnchored : Element → Bool
  | .suffixed .. | .epsilon _ => false
  | _ => true

def anchors (nodes : List Element) : List Nat :=
  (nodes.filter (·.isAnchored)).map (·.extent.start)

@[simp]
theorem anchors_nil : anchors [] = [] := rfl

@[simp]
theorem anchors_append (nodes others : List Element) :
    anchors (nodes ++ others) = anchors nodes ++ anchors others := by
  unfold anchors
  rw [List.filter_append, List.map_append]

theorem anchors_cons {e : Element} (he : e.isAnchored = true) (nodes : List Element) :
    anchors (e :: nodes) = e.extent.start :: anchors nodes := by
  unfold anchors
  rw [List.filter_cons_of_pos he, List.map_cons]

/-! ## Growing numbers -/

/-- Whether numbers grow, from `lo` on and below `hi`. -/
structure Grows (lo hi : Nat) (xs : List Nat) : Prop where
  increase : xs.Pairwise (· < ·)
  within : ∀ x ∈ xs, lo ≤ x ∧ x < hi

namespace Grows

variable {lo hi lo' hi' mid : Nat} {xs ys : List Nat}

theorem nil (lo hi : Nat) : Grows lo hi [] :=
  ⟨.nil, nofun⟩

theorem widen (h : Grows lo hi xs) (hlo : lo' ≤ lo) (hhi : hi ≤ hi') : Grows lo' hi' xs :=
  ⟨h.increase, fun x hx =>
    ⟨Nat.le_trans hlo (h.within x hx).1, Nat.lt_of_lt_of_le (h.within x hx).2 hhi⟩⟩

theorem append (h : Grows lo mid xs) (h' : Grows mid hi ys) (hlo : lo ≤ mid) (hhi : mid ≤ hi) :
    Grows lo hi (xs ++ ys) := by
  refine ⟨List.pairwise_append.mpr ⟨h.increase, h'.increase, fun x hx y hy => ?_⟩, fun x hx => ?_⟩
  · exact Nat.lt_of_lt_of_le (h.within x hx).2 (h'.within y hy).1
  · rcases List.mem_append.mp hx with hx | hx
    · exact ⟨(h.within x hx).1, Nat.lt_of_lt_of_le (h.within x hx).2 hhi⟩
    · exact ⟨Nat.le_trans hlo (h'.within x hx).1, (h'.within x hx).2⟩

theorem cons (h : Grows (lo + 1) hi xs) (hlo : lo < hi) : Grows lo hi (lo :: xs) := by
  have hfirst : Grows lo (lo + 1) [lo] := ⟨List.pairwise_singleton _ _, by simp⟩
  exact hfirst.append h (by omega) (by omega)

theorem nodup (h : Grows lo hi xs) : xs.Nodup :=
  h.increase.imp fun hlt => Nat.ne_of_lt hlt

end Grows

/-! ## Elements of a rule -/

/-- An element that begins a part, and begins before what is in it. -/
theorem grows_cons {e : Element} {nodes : List Element} {i n : Nat} (he : e.isAnchored = true)
    (hstart : e.extent.start = i) (hn : 0 < n) (h : Grows (i + 1) (i + n) (anchors nodes)) :
    Grows i (i + n) (anchors (e :: nodes)) := by
  rw [anchors_cons he, hstart]
  exact h.cons (by omega)

mutual
/-- The tokens that an element and those in it begin with. -/
theorem Element.Spelled.anchors : ∀ (e : Element) {i : Nat} {ts : List TokenTree}, e.Spelled i ts →
    Grows i (i + widths ts) (anchors e.nodes)
  | .block alts options extent, i, ts, h => by
      rw [Element.Spelled] at h
      obtain ⟨-, rfl, opened, closed, body, rfl, halts⟩ := h
      exact grows_cons rfl rfl (widths_pos (by simp)) ((Alt.AllSpelled.anchors alts halts).widen
        (by omega) (by simp; omega))
  | .ruleRef r, i, ts, h => by
      rw [Element.Spelled] at h
      obtain ⟨-, hextent, -, p, args, options, rfl, -⟩ := h
      exact grows_cons rfl (congrArg Extent.start hextent) (widths_pos (by simp)) (.nil _ _)
  | .tokenRef name options extent, i, ts, h => by
      rw [Element.Spelled] at h
      obtain ⟨-, rfl, p, rest, rfl, -⟩ := h
      exact grows_cons rfl rfl (widths_pos (by simp)) (.nil _ _)
  | .quotation literal, i, ts, h => by
      rw [Element.Spelled] at h
      obtain ⟨hextent, t, rest, rfl, -⟩ := h
      exact grows_cons rfl (congrArg Extent.start hextent)
        (widths_pos (by simp)) (.nil _ _)
  | .range first last extent, i, ts, h => by
      rw [Element.Spelled] at h
      obtain ⟨rfl, -, -, -, -, t, u, joint, p, q, rfl, -⟩ := h
      exact grows_cons rfl rfl (widths_pos (by simp)) (.nil _ _)
  | .wildcard options extent, i, ts, h => by
      rw [Element.Spelled] at h
      obtain ⟨rfl, joint, p, rest, rfl, -⟩ := h
      exact grows_cons rfl rfl (widths_pos (by simp)) (.nil _ _)
  | .not operand extent, i, ts, h => by
      rw [Element.Spelled] at h
      obtain ⟨rfl, -, joint, p, rest, rfl, hoperand⟩ := h
      exact grows_cons rfl rfl (widths_pos (by simp)) ((Element.Spelled.anchors operand hoperand).widen
        (by omega) (by simp; omega))
  | .set elements extent, i, ts, h => by
      rw [Element.Spelled] at h
      obtain ⟨rfl, opened, closed, body, rfl, helements⟩ := h
      exact grows_cons rfl rfl (widths_pos (by simp)) ((Element.SetSpelled.anchors elements helements).widen
        (by omega) (by simp; omega))
  | .suffixed suffix greedy element extent, i, ts, h => by
      rw [Element.Spelled] at h
      obtain ⟨-, -, front, back, rfl, helement, -⟩ := h
      exact (Element.Spelled.anchors element helement).widen (by omega) (by simp)
  | .labeled isList label token element extent, i, ts, h => by
      rw [Element.Spelled] at h
      obtain ⟨rfl, -, -, p, sign, rest, rfl, -, helement⟩ := h
      exact grows_cons rfl rfl (widths_pos (by simp)) ((Element.Spelled.anchors element helement).widen
        (by omega) (by simp; omega))
  | .action code, i, ts, h => by
      rw [Element.Spelled] at h
      obtain ⟨-, hextent, opened, closed, body, rfl, -⟩ := h
      exact grows_cons rfl (congrArg Extent.start hextent) (widths_pos (by simp)) (.nil _ _)
  | .predicate code, i, ts, h => by
      rw [Element.Spelled] at h
      obtain ⟨hextent, opened, closed, body, joint, p, rest, rfl, -⟩ := h
      exact grows_cons rfl (congrArg Extent.start hextent) (widths_pos (by simp)) (.nil _ _)
  | .command name arg extent, i, ts, h => by
      -- the mark of a command belongs to no element
      rw [Element.Spelled] at h
      obtain ⟨mark, p, rest, rfl, rfl, -⟩ := h
      exact (grows_cons (i := i + widths mark) (n := 1 + widths rest) rfl rfl (by omega)
        (.nil _ _)).widen (by omega) (by simp; omega)
  | .epsilon _, _, _, _ => .nil _ _

theorem Element.ListSpelled.anchors : ∀ (es : List Element) {i : Nat} {ts : List TokenTree},
    Element.ListSpelled i ts es → Grows i (i + widths ts) (anchors (Element.listNodes es))
  | [], _, _, _ => .nil _ _
  | e :: es, i, ts, h => by
      rw [Element.ListSpelled] at h
      obtain ⟨front, back, rfl, he, -, hes⟩ := h
      rw [Element.listNodes, anchors_append]
      exact (Element.Spelled.anchors e he).append ((Element.ListSpelled.anchors es hes).widen
        (by omega) (by simp; omega)) (by omega) (by simp)

theorem Element.SetSpelled.anchors : ∀ (es : List Element) {i : Nat} {ts : List TokenTree},
    Element.SetSpelled i ts es → Grows i (i + widths ts) (anchors (Element.listNodes es))
  | [], _, _, _ => .nil _ _
  | e :: es, i, ts, h => by
      rw [Element.SetSpelled] at h
      obtain ⟨-, front, back, rfl, he, hrest⟩ := h
      rw [Element.listNodes, anchors_append]
      rcases hrest with ⟨rfl, rfl⟩ | ⟨joint, p, rest, rfl, hes⟩
      · simpa [Element.listNodes] using Element.Spelled.anchors e he
      · exact (Element.Spelled.anchors e he).append ((Element.SetSpelled.anchors es hes).widen
          (by omega) (by simp; omega)) (by omega) (by simp)

theorem Alt.Spelled.anchors : ∀ (a : Alt) {i : Nat} {ts : List TokenTree}, a.Spelled i ts →
    Grows i (i + widths ts) (anchors a.nodes)
  | ⟨elements, options, label, extent, info⟩, i, ts, h => by
      rw [Alt.Spelled] at h
      obtain ⟨-, front, body, back, rfl, -, -, -, ⟨-, rfl⟩ | ⟨-, -, helements⟩⟩ := h
      · exact .nil _ _
      · exact (Element.ListSpelled.anchors elements helements).widen (by omega) (by simp; omega)

theorem Alt.AllSpelled.anchors : ∀ (as : List Alt) {i : Nat} {ts : List TokenTree},
    Alt.AllSpelled i ts as → Grows i (i + widths ts) (anchors (Alt.listNodes as))
  | [], _, _, _ => .nil _ _
  | a :: as, i, ts, h => by
      rw [Alt.AllSpelled] at h
      obtain ⟨front, back, rfl, ha, hrest⟩ := h
      rw [Alt.listNodes, anchors_append]
      rcases hrest with ⟨rfl, rfl⟩ | ⟨joint, p, rest, rfl, -, has⟩
      · simpa [Alt.listNodes] using Alt.Spelled.anchors a ha
      · exact (Alt.Spelled.anchors a ha).append ((Alt.AllSpelled.anchors as has).widen
          (by omega) (by simp; omega)) (by omega) (by simp)
end

/-- The tokens that the elements of a rule begin with. -/
theorem RuleDef.Spelled.anchors {rule : RuleDef} {i : Nat} {ts : List TokenTree}
    (h : rule.Spelled i ts) : Grows i (i + widths ts) (anchors rule.nodes) := by
  obtain ⟨-, -, mark, heading, body, p, joint, joint', q, r, rfl, -, -, halts, -⟩ := h
  exact (Alt.AllSpelled.anchors rule.alts halts).widen (by omega) (by simp; omega)

/-! ## Copied tokens -/

theorem Element.isAnchored_of_option? {e : Element} {key value : String}
    (h : e.option? key = some value) : e.isAnchored = true := by
  cases e with
  | suffixed => cases h
  | epsilon => cases h
  | _ => rfl

/-- Copied tokens begin elements. -/
theorem RuleDef.copiedTokens_sublist (rule : RuleDef) :
    (rule.copiedTokens.map (·.1)).Sublist (GrammarCompiler.anchors rule.nodes) := by
  unfold copiedTokens
  induction rule.nodes with
  | nil => exact .refl _
  | cons e nodes ih =>
      simp only [List.filterMap_cons]
      cases hvalue : e.option? tokenIndexOption with
      | none =>
          exact ih.trans (((List.sublist_cons_self e nodes).filter _).map _)
      | some value =>
          rw [anchors_cons (Element.isAnchored_of_option? hvalue)]
          cases horigin : Text.index? value with
          | none => simpa [horigin] using ih.cons e.extent.start
          | some origin => simpa [horigin] using ih.cons_cons e.extent.start

end GrammarCompiler
