import GrammarCompiler.Proofs.Grammar.Derives
import GrammarCompiler.Proofs.IntervalSet
import GrammarCompiler.Proofs.Vocabulary

/-!
# Symbols of elements

The labels of transitions are interval sets. They are in order as long as symbols are numbers of 32
bits, and then they hold just the symbols that the elements stand for.
-/

namespace GrammarCompiler

open Text (maxInt32)

namespace Symbol

theorem ofChar_le (c : Char) : ofChar c ≤ maxInt32 := by
  have h : c.toNat < 1114112 := by
    have := c.valid
    unfold UInt32.isValidChar Nat.isValidChar at this
    have hc : c.toNat = c.val.toNat := rfl
    omega
  unfold ofChar maxInt32
  omega

end Symbol

namespace Network

theorem firstSymbol_le (literal : Quotation) : firstSymbol literal ≤ maxInt32 := by
  unfold firstSymbol
  cases literal.value.toList.head? with
  | none => decide
  | some c => exact Symbol.ofChar_le c

/-- How a scope understands elements. -/
def Scope.dialect (scope : Scope) (passes : Int → Int → Prop) : Dialect :=
  ⟨scope.grammar, scope.vocabulary, scope.kind, passes⟩

/-- A set in order that holds what another one holds, and more. -/
structure Gains (before after : IntervalSet) (more : Int → Prop) : Prop where
  canonical : after.Canonical
  mem : ∀ n, n ∈ after ↔ n ∈ before ∨ more n

theorem Gains.none {set : IntervalSet} (h : set.Canonical) {more : Int → Prop}
    (hmore : ∀ n, ¬more n) : Gains set set more :=
  ⟨h, fun n => ⟨Or.inl, fun hn => hn.elim id fun hn => absurd hn (hmore n)⟩⟩

theorem Gains.congr {before after : IntervalSet} {more more' : Int → Prop}
    (h : Gains before after more) (hmore : ∀ n, more n ↔ more' n) : Gains before after more' :=
  ⟨h.canonical, fun n => by rw [h.mem, hmore]⟩

/-- A type that is missing adds nothing to a set. -/
theorem gains_optional {set : IntervalSet} (hset : set.Canonical) {type? : Option Int}
    (h : ∀ type, type? = some type → type ≤ maxInt32) :
    Gains set ((type?.map set.add).getD set) fun n => type? = some n := by
  cases type? with
  | none => exact .none hset nofun
  | some type =>
      refine ⟨hset.add (h type rfl), fun n => ?_⟩
      rw [Option.map_some, Option.getD_some, IntervalSet.mem_add hset (h type rfl),
        Option.some.injEq, eq_comm (a := type)]

section Labels

variable {scope : Scope} (passes : Int → Int → Prop)

mutual
theorem gains_addSymbols (hv : scope.vocabulary.Fits) :
    ∀ (e : Element) {set : IntervalSet}, set.Canonical →
      Gains set (addSymbols scope set e) ((scope.dialect passes).InSet e)
  | .quotation literal, set, hset => by
      unfold addSymbols
      cases hkind : scope.kind with
      | lexer =>
          have hle : ∀ n ∈ literal.value.toList.map Symbol.ofChar, n ≤ maxInt32 := by
            intro n hn
            obtain ⟨c, -, rfl⟩ := List.mem_map.mp hn
            exact Symbol.ofChar_le c
          obtain ⟨hcan, hmem⟩ := IntervalSet.ofList_spec hle hset
          refine Gains.congr ⟨hcan, hmem⟩ fun n => ⟨fun hn => ?_, fun hn => ?_⟩
          · obtain ⟨c, hc, rfl⟩ := List.mem_map.mp hn
            exact .character hkind hc
          · cases hn with
            | character _ hc => exact List.mem_map_of_mem hc
            | literal hparser _ => cases hkind.symm.trans hparser
      | parser =>
          refine (gains_optional hset (hv.literals _)).congr fun n => ⟨fun hn => .literal hkind hn,
            fun hn => ?_⟩
          cases hn with
          | character hlexer _ => cases hkind.symm.trans hlexer
          | literal _ htype => exact htype
  | .range first last _, set, hset => by
      unfold addSymbols
      refine Gains.congr ⟨hset.addRange (firstSymbol_le last),
        IntervalSet.mem_addRange hset (firstSymbol_le last)⟩ fun n => ⟨fun hn => .range hn.1 hn.2, ?_⟩
      rintro (_ | _ | ⟨hfirst, hlast⟩)
      exact ⟨hfirst, hlast⟩
  | .tokenRef name _ _, set, hset => by
      unfold addSymbols
      cases hkind : scope.kind with
      | lexer =>
          refine .none hset fun n hn => ?_
          cases hn with
          | token hparser _ => cases hkind.symm.trans hparser
      | parser =>
          refine (gains_optional hset (hv.names name)).congr fun n => ⟨fun hn => .token hkind hn,
            fun hn => ?_⟩
          cases hn with
          | token _ htype => exact htype
  | .set elements _, set, hset => by
      unfold addSymbols
      have hall := gains_addAllSymbols hv elements IntervalSet.canonical_empty
      refine Gains.congr ⟨hset.addAll hall.canonical, IntervalSet.mem_addAll hset hall.canonical⟩
        fun n => ?_
      rw [hall.mem]
      refine ⟨fun hn => ?_, fun hn => ?_⟩
      · obtain ⟨e, he, hn⟩ := hn.resolve_left (IntervalSet.not_mem_empty n)
        exact .set he hn
      · cases hn with
        | set he hn => exact Or.inr ⟨_, he, hn⟩
  | .block _ _ _, _, hset | .ruleRef _, _, hset | .wildcard _ _, _, hset | .not _ _, _, hset
  | .suffixed _ _ _ _, _, hset | .labeled _ _ _ _ _, _, hset | .action _, _, hset
  | .predicate _, _, hset | .command _ _ _, _, hset | .epsilon _, _, hset => by
      unfold addSymbols
      exact .none hset nofun

theorem gains_addAllSymbols (hv : scope.vocabulary.Fits) :
    ∀ (es : List Element) {set : IntervalSet}, set.Canonical →
      Gains set (addAllSymbols scope set es) fun n => ∃ e ∈ es, (scope.dialect passes).InSet e n
  | [], _, hset => by
      unfold addAllSymbols
      exact .none hset fun n hn => by simp at hn
  | e :: es, _, hset => by
      unfold addAllSymbols
      have hfirst := gains_addSymbols hv e hset
      have hrest := gains_addAllSymbols hv es hfirst.canonical
      refine ⟨hrest.canonical, fun n => ?_⟩
      rw [hrest.mem, hfirst.mem, List.exists_mem_cons_iff, or_assoc]
end

theorem gains_operandSymbols (hv : scope.vocabulary.Fits) (e : Element) :
    Gains .empty (operandSymbols scope e) ((scope.dialect passes).InSet e) := by
  unfold operandSymbols
  split
  · refine (gains_addAllSymbols passes hv _ IntervalSet.canonical_empty).congr fun n =>
      ⟨fun ⟨e, he, hn⟩ => .set he hn, fun hn => ?_⟩
    cases hn with
    | set he hn => exact ⟨_, he, hn⟩
  · exact gains_addSymbols passes hv _ IntervalSet.canonical_empty

end Labels

end Network

end GrammarCompiler
