import GrammarCompiler.Proofs.Ast.Anchors
import GrammarCompiler.Proofs.Token.Table

/-!
# Tokens that stay

Reading a rule adds tokens to the table and touches none of those before (`RuleDef.extends_of_parse`),
whether the reading succeeds or not. Of the tokens it adds, those that are copies are shown where the
tokens they were copied from are (`RuleDef.get?_relocateCopies`): no two elements begin at the same
token, so no copy is moved twice.
-/

namespace GrammarCompiler

open Text (Position)
open TokenTree (widths)

namespace TokenTable

/-- Whether a table is another one with tokens and sources added behind. -/
structure Extends (after before : TokenTable) : Prop where
  tokens : before.tokens.toList <+: after.tokens.toList
  sources : before.sources.toList <+: after.sources.toList

namespace Extends

variable {after between before table : TokenTable}

theorem refl (table : TokenTable) : table.Extends table :=
  ⟨List.prefix_rfl, List.prefix_rfl⟩

theorem trans (h : after.Extends between) (h' : between.Extends before) : after.Extends before :=
  ⟨h'.tokens.trans h.tokens, h'.sources.trans h.sources⟩

theorem get? (h : after.Extends before) {i : Nat} (hi : i < before.size) :
    after.get? i = before.get? i := by
  have hget := List.prefix_iff_getElem?.mp h.tokens i hi
  unfold TokenTable.get?
  rw [← Array.getElem?_toList, ← Array.getElem?_toList, hget]
  exact (List.getElem?_eq_getElem _).symm

theorem sourceName (h : after.Extends before) {source : Nat} (hsource : source < before.sources.size) :
    after.sourceName source = before.sourceName source := by
  have hget := List.prefix_iff_getElem?.mp h.sources source hsource
  unfold TokenTable.sourceName
  rw [← Array.getElem?_toList, ← Array.getElem?_toList, hget]
  exact congrArg (Option.getD · _) (List.getElem?_eq_getElem _).symm

theorem push (table : TokenTable) (source : Nat) (kind : TokenKind) (text : String) (joint : Bool)
    (position : Position) : (table.push source kind text joint position).Extends table :=
  ⟨by
    rw [TokenTable.push, Array.toList_push]
    exact List.prefix_append .., List.prefix_rfl⟩

mutual
theorem pushTree (source : Nat) : ∀ (t : TokenTree) (table : TokenTable),
    (TokenTable.pushTree source t table).Extends table
  | .leaf (.ident _) _, _ | .leaf (.literal _) _, _ | .leaf (.punct _ _) _, _ => push ..
  | .group .parenthesis _ _ body, _ =>
      ((push ..).trans (pushTrees source body _)).trans (push ..)
  | .group .brace _ _ _, _ | .group .bracket _ _ _, _ => push ..

theorem pushTrees (source : Nat) : ∀ (ts : List TokenTree) (table : TokenTable),
    (TokenTable.pushTrees source ts table).Extends table
  | [], table => refl table
  | t :: ts, table => (pushTrees source ts _).trans (pushTree source t table)
end

theorem addSource (table : TokenTable) (name : String) (trees : List TokenTree) :
    (table.addSource name trees).Extends table :=
  (pushTrees ..).trans ⟨List.prefix_rfl, by
    rw [Array.toList_push]
    exact List.prefix_append ..⟩

/-- A token that has been added may be moved. -/
theorem relocate (h : after.Extends before) {index : Nat} (hindex : before.size ≤ index)
    (origin : Nat) : (after.relocate index origin).Extends before := by
  unfold TokenTable.relocate
  split
  · exact h
  · refine ⟨List.prefix_iff_getElem?.mpr fun i hi => ?_, h.sources⟩
    have hne : index ≠ i := Nat.ne_of_gt (Nat.lt_of_lt_of_le hi hindex)
    rw [Array.getElem?_toList, Array.getElem?_modify, if_neg hne, ← Array.getElem?_toList]
    exact List.prefix_iff_getElem?.mp h.tokens i hi

end Extends

/-! ## Names of sources -/

/-- Whether every token comes from a source that has a name. -/
def Sourced (table : TokenTable) : Prop :=
  ∀ t ∈ table.tokens.toList, t.source < table.sources.size

theorem sourced_empty : empty.Sourced := nofun

theorem Sourced.get? {table : TokenTable} (h : table.Sourced) {i : Nat} {t : Token}
    (ht : table.get? i = some t) : t.source < table.sources.size :=
  h t (Array.mem_toList_iff.mpr (Array.mem_of_getElem? ht))

theorem Sourced.push {table : TokenTable} (h : table.Sourced) {source : Nat}
    (hsource : source < table.sources.size) (kind : TokenKind) (text : String) (joint : Bool)
    (position : Position) : (table.push source kind text joint position).Sourced := by
  unfold Sourced TokenTable.push
  rw [Array.toList_push]
  exact List.forall_mem_append.mpr ⟨h, List.forall_mem_singleton.mpr hsource⟩

mutual
theorem Sourced.pushTree {source : Nat} : ∀ (t : TokenTree) {table : TokenTable}, table.Sourced →
    source < table.sources.size → (TokenTable.pushTree source t table).Sourced ∧
      (TokenTable.pushTree source t table).sources = table.sources
  | .leaf (.ident _) _, _, h, hsource | .leaf (.literal _) _, _, h, hsource
  | .leaf (.punct _ _) _, _, h, hsource => ⟨h.push hsource _ _ _ _, rfl⟩
  | .group .parenthesis opened closed body, table, h, hsource => by
      obtain ⟨hbody, hsources⟩ :=
        Sourced.pushTrees body (h.push hsource .openParen "(" false opened) hsource
      rw [TokenTable.pushTree]
      exact ⟨hbody.push (hsources ▸ hsource) _ _ _ _, hsources⟩
  | .group .brace _ _ _, _, h, hsource | .group .bracket _ _ _, _, h, hsource => by
      rw [TokenTable.pushTree]
      exact ⟨h.push hsource _ _ _ _, rfl⟩

theorem Sourced.pushTrees {source : Nat} : ∀ (ts : List TokenTree) {table : TokenTable},
    table.Sourced → source < table.sources.size → (TokenTable.pushTrees source ts table).Sourced ∧
      (TokenTable.pushTrees source ts table).sources = table.sources
  | [], _, h, _ => ⟨h, rfl⟩
  | t :: ts, _, h, hsource => by
      obtain ⟨hfirst, hsources⟩ := Sourced.pushTree t h hsource
      obtain ⟨hrest, hsources'⟩ := Sourced.pushTrees ts hfirst (hsources ▸ hsource)
      exact ⟨hrest, hsources'.trans hsources⟩
end

theorem Sourced.addSource {table : TokenTable} (h : table.Sourced) (name : String)
    (trees : List TokenTree) : (table.addSource name trees).Sourced := by
  refine (Sourced.pushTrees trees (fun t ht => ?_) ?_).1
  · exact Nat.lt_of_lt_of_le (h t ht) (by simp)
  · simp

/-! ## Moving copies -/

theorem get?_relocate_of_ne (table : TokenTable) {index origin i : Nat} (h : index ≠ i) :
    (table.relocate index origin).get? i = table.get? i := by
  unfold relocate
  split
  · rfl
  · unfold get?
    rw [Array.getElem?_modify, if_neg h]

def shownAt (t there : Token) : Token :=
  { t with source := there.source, position := there.position }

theorem get?_relocate_self (table : TokenTable) {index origin : Nat} {t there : Token}
    (ht : table.get? index = some t) (hthere : table.get? origin = some there) :
    (table.relocate index origin).get? index = some (shownAt t there) := by
  unfold relocate
  rw [hthere]
  unfold get? at ht ⊢
  rw [Array.getElem?_modify, if_pos rfl, ht]
  rfl

/-- The table after some tokens have been moved to where others are. -/
def relocateAll (table : TokenTable) (copies : List (Nat × Nat)) : TokenTable :=
  copies.foldl (fun table (index, origin) => table.relocate index origin) table

theorem get?_relocateAll_of_notMem {copies : List (Nat × Nat)} {i : Nat}
    (h : i ∉ copies.map (·.1)) (table : TokenTable) :
    (table.relocateAll copies).get? i = table.get? i := by
  induction copies generalizing table with
  | nil => rfl
  | cons copy copies ih =>
      obtain ⟨hne, h⟩ := not_or.mp (mt List.mem_cons.mpr h)
      exact (ih h _).trans (table.get?_relocate_of_ne (Ne.symm hne))

/-- A copy is shown where its origin is, unless that is a copy itself. -/
theorem get?_relocateAll {copies : List (Nat × Nat)} (hnodup : (copies.map (·.1)).Nodup)
    {table : TokenTable} {index origin : Nat} (hcopy : (index, origin) ∈ copies)
    (horigin : origin ∉ copies.map (·.1)) {t there : Token} (ht : table.get? index = some t)
    (hthere : table.get? origin = some there) :
    (table.relocateAll copies).get? index = some (shownAt t there) := by
  induction copies generalizing table with
  | nil => cases hcopy
  | cons copy copies ih =>
      obtain ⟨hcopyNew, hnodup⟩ := List.nodup_cons.mp hnodup
      obtain ⟨hne, horigin⟩ := not_or.mp (mt List.mem_cons.mpr horigin)
      rcases List.mem_cons.mp hcopy with rfl | hcopy
      · exact (get?_relocateAll_of_notMem hcopyNew _).trans (table.get?_relocate_self ht hthere)
      · have hindex : copy.1 ≠ index := fun heq =>
          hcopyNew (List.mem_map.mpr ⟨_, hcopy, heq.symm⟩)
        refine ih hnodup hcopy horigin ?_ ?_
        · exact (table.get?_relocate_of_ne hindex).trans ht
        · exact (table.get?_relocate_of_ne (Ne.symm hne)).trans hthere

end TokenTable

namespace RuleDef

theorem relocateCopies_eq (rule : RuleDef) (table : TokenTable) :
    rule.relocateCopies table = table.relocateAll rule.copiedTokens := rfl

/-- Copies are among the tokens that a rule is read from, and no two of them are at the same token. -/
theorem Spelled.copiedTokens {rule : RuleDef} {i : Nat} {ts : List TokenTree} (h : rule.Spelled i ts) :
    (rule.copiedTokens.map (·.1)).Nodup ∧
      ∀ copy ∈ rule.copiedTokens, i ≤ copy.1 ∧ copy.1 < i + widths ts := by
  have hsublist := rule.copiedTokens_sublist
  refine ⟨h.anchors.nodup.sublist hsublist, fun copy hcopy => ?_⟩
  exact h.anchors.within _ (hsublist.subset (List.mem_map_of_mem hcopy))

theorem extends_relocateCopies {rule : RuleDef} {before after : TokenTable}
    (hcopies : ∀ copy ∈ rule.copiedTokens, before.size ≤ copy.1) (h : after.Extends before) :
    (rule.relocateCopies after).Extends before := by
  rw [relocateCopies_eq]
  generalize rule.copiedTokens = copies at hcopies
  induction copies generalizing after with
  | nil => exact h
  | cons copy copies ih =>
      obtain ⟨hcopy, hcopies⟩ := List.forall_mem_cons.mp hcopies
      exact ih (h.relocate hcopy _) hcopies

/-- Reading a rule keeps the tokens there are. -/
theorem extends_of_parse (name source : String) (table : TokenTable) :
    (RuleDef.parse name source table).2.Extends table := by
  unfold RuleDef.parse
  split
  · exact .refl table
  · dsimp only
    split
    · exact .addSource ..
    · next rule behind hbehind hread =>
        split
        · exact .addSource ..
        · obtain ⟨used, -, hspelled⟩ := Cursor.takes_rule hread
          exact extends_relocateCopies (fun copy hcopy => (hspelled.copiedTokens.2 copy hcopy).1)
            (.addSource ..)

end RuleDef

end GrammarCompiler
