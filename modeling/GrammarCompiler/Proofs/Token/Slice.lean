import GrammarCompiler.Proofs.Ast.Placed
import GrammarCompiler.Proofs.Recursion.Added

/-!
# Tokens found again

The tokens of a table are numbered by their places (`TokenTable.Indexed`), so the tokens of trees that
stand in a table are found by the place of the first of them (`Indexed.numbered_slice`).
-/

namespace GrammarCompiler

open TokenTree (widths allWritten StandAt)

namespace TokenTable

def slice (table : TokenTable) (start stop : Nat) : List Token :=
  (table.tokens.toList.take stop).drop start

def Indexed (table : TokenTable) : Prop :=
  table.tokens.toList.map Token.index = List.range' 0 table.size

theorem indexed_empty : empty.Indexed := rfl

theorem Indexed.push {table : TokenTable} (h : table.Indexed) (source : Nat) (kind : TokenKind)
    (text : String) (joint : Bool) (position : Text.Position) :
    (table.push source kind text joint position).Indexed := by
  unfold Indexed at h ⊢
  rw [size_push, ← List.range'_append_1, ← h]
  simp [TokenTable.push]

mutual
theorem Indexed.pushTree (source : Nat) : ∀ (t : TokenTree) {table : TokenTable}, table.Indexed →
    (TokenTable.pushTree source t table).Indexed
  | .leaf (.ident _) _, _, h | .leaf (.literal _) _, _, h | .leaf (.punct _ _) _, _, h => h.push ..
  | .group .parenthesis opened closed body, _, h => by
      rw [TokenTable.pushTree]
      exact (Indexed.pushTrees source body (h.push ..)).push ..
  | .group .brace _ _ _, _, h | .group .bracket _ _ _, _, h => by
      rw [TokenTable.pushTree]
      exact h.push ..

theorem Indexed.pushTrees (source : Nat) : ∀ (ts : List TokenTree) {table : TokenTable},
    table.Indexed → (TokenTable.pushTrees source ts table).Indexed
  | [], _, h => by rwa [TokenTable.pushTrees]
  | t :: ts, _, h => by
      rw [TokenTable.pushTrees]
      exact Indexed.pushTrees source ts (Indexed.pushTree source t h)
end

theorem Indexed.addSource {table : TokenTable} (h : table.Indexed) (name : String)
    (trees : List TokenTree) : (table.addSource name trees).Indexed :=
  Indexed.pushTrees _ trees h

/-- The tokens of trees in a table. -/
theorem Indexed.numbered_slice {table : TokenTable} (h : table.Indexed) {i : Nat}
    {ts : List TokenTree} (hts : StandAt table.written i ts) :
    Numbered i ts (table.slice i (i + widths ts)) := by
  obtain ⟨before, after, hwritten, hlength⟩ := hts
  unfold TokenTable.written at hwritten
  obtain ⟨front, back, hfront, hwritten, -⟩ := List.map_eq_append_iff.mp hwritten
  obtain ⟨first, tokens, rfl, hbefore, htokens⟩ := List.map_eq_append_iff.mp hwritten
  have hfirst : first.length = i := by
    rw [← hlength, ← hbefore, List.length_map]
  have hlast : tokens.length = widths ts := by
    rw [← TokenTree.length_allWritten, ← htokens, List.length_map]
  have hslice : table.slice i (i + widths ts) = tokens := by
    unfold slice
    rw [hfront, ← hfirst, ← hlast, ← List.length_append, List.take_left, List.drop_left]
  refine hslice ▸ ⟨htokens, ?_⟩
  have hsize : table.size = first.length + tokens.length + back.length := by
    rw [TokenTable.size, ← Array.length_toList, hfront, List.length_append, List.length_append]
  have hindices : (first ++ tokens ++ back).map Token.index = List.range' 0 table.size := hfront ▸ h
  rw [hsize, ← List.range'_append_1, ← List.range'_append_1, List.map_append, List.map_append,
    Nat.zero_add, hfirst] at hindices
  obtain ⟨hindices, -⟩ := List.append_inj hindices (by simp [hfirst])
  exact (List.append_inj hindices (by simp [hfirst])).2

theorem length_slice_le (table : TokenTable) (start stop : Nat) :
    (table.slice start stop).length ≤ stop - start := by
  unfold slice
  rw [List.length_drop, List.length_take]
  omega

theorem slice_self (table : TokenTable) (i : Nat) : table.slice i i = [] := by
  refine List.eq_nil_of_length_eq_zero (Nat.le_zero.mp ?_)
  have := table.length_slice_le i i
  omega

/-- Tokens in a row. -/
theorem slice_append (table : TokenTable) {i j k : Nat} (hij : i ≤ j) (hjk : j ≤ k) :
    table.slice i k = table.slice i j ++ table.slice j k := by
  unfold slice
  rw [← List.take_append_drop (j - i) ((table.tokens.toList.take k).drop i), List.drop_drop,
    List.take_drop, List.take_take]
  congr <;> omega

end TokenTable

end GrammarCompiler
