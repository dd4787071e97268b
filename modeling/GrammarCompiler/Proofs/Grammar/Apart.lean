import GrammarCompiler.Proofs.Ast.Keys
import GrammarCompiler.Proofs.Grammar.Built
import GrammarCompiler.Proofs.Token.Table
import Mathlib.Data.List.Flatten

/-!
# Constructs are told apart

All rules of a grammar without imports stand in one token table, each in a place of its own. So no
two constructs have the same key (`Grammar.Apart`). A rule that takes the place of another brings
tokens of its own, and the options that elements are given change no key.
-/

namespace GrammarCompiler

open TokenTree (widths)

/-! ## Keys of what is read -/

/-- The keys of rules one behind the other. -/
theorem RulesSpelled.keys {rules : List RuleDef} {i : Nat} {ts : List TokenTree}
    (h : RulesSpelled i ts rules) :
    (rules.flatMap RuleDef.keys).Nodup ∧
      ∀ rule ∈ rules, ∀ key ∈ rule.keys, i ≤ key.1 ∧ key.1 < i + widths ts := by
  induction rules generalizing i ts with
  | nil => exact ⟨List.nodup_nil, nofun⟩
  | cons rule rules ih =>
      obtain ⟨front, back, rfl, hrule, hrules⟩ := h
      obtain ⟨hnodup, hwithin⟩ := hrule.keys
      obtain ⟨hnodup', hwithin'⟩ := ih hrules
      rw [TokenTree.widths_append]
      refine ⟨List.nodup_append.mpr ⟨hnodup, hnodup', ?_⟩, List.forall_mem_cons.mpr
        ⟨fun key hkey => ?_, fun rule hrule key hkey => ?_⟩⟩
      · rintro key hkey _ hkey' rfl
        obtain ⟨other, hother, hkey'⟩ := List.mem_flatMap.mp hkey'
        have := hwithin key hkey
        have := hwithin' other hother key hkey'
        omega
      · have := hwithin key hkey
        omega
      · have := hwithin' rule hrule key hkey
        omega

theorem GrammarDef.keys_of_parse {file source : String} {g : GrammarDef}
    (h : GrammarDef.parse file source = .ok g) :
    (g.rules.flatMap RuleDef.keys).Nodup ∧
      ∀ rule ∈ g.rules, ∀ key ∈ rule.keys, key.1 < g.tokens.size := by
  unfold GrammarDef.parse at h
  obtain ⟨trees, htrees, h⟩ := ok_of_bind h
  obtain ⟨htokens, front, back, hsplit, hspelled⟩ := Cursor.takes_grammar h
  obtain ⟨hnodup, hwithin⟩ := hspelled.keys
  refine ⟨hnodup, fun rule hrule key hkey => ?_⟩
  have hlt := (hwithin rule hrule key hkey).2
  rw [htokens, TokenTable.size_addSource, show trees = front ++ back from hsplit,
    TokenTree.widths_append]
  have hstart : (Cursor.atStart trees 0).index = 0 := rfl
  omega

/-- A rule that is read brings tokens of its own. -/
theorem RuleDef.keys_of_parse {name source : String} {table tokens : TokenTable}
    {rule : RuleDef} (h : RuleDef.parse name source table = (.ok rule, tokens)) :
    rule.keys.Nodup ∧ ∀ key ∈ rule.keys, table.size ≤ key.1 ∧ key.1 < tokens.size := by
  obtain ⟨trees, behind, hbehind, -, hread, -, -, rfl⟩ := RuleDef.parse_eq_ok.mp h
  obtain ⟨used, htakes, hspelled⟩ := Cursor.takes_rule hread
  obtain ⟨hnodup, hwithin⟩ := hspelled.keys
  refine ⟨hnodup, fun key hkey => ?_⟩
  have hkey := hwithin key hkey
  have hstart : (Cursor.atStart trees table.size).index = table.size := rfl
  rw [RuleDef.size_relocateCopies, TokenTable.size_addSource,
    show trees = used ++ behind.trees from htakes.1, TokenTree.widths_append]
  omega

theorem RuleDef.size_le_of_parse (name source : String) (table : TokenTable) :
    table.size ≤ (RuleDef.parse name source table).2.size := by
  have hadded : ∀ trees, table.size ≤ (table.addSource name trees).size := by
    intro trees
    rw [TokenTable.size_addSource]
    exact Nat.le_add_right ..
  unfold RuleDef.parse
  split
  · exact Nat.le_refl _
  · dsimp only
    split
    · exact hadded _
    · split
      · exact hadded _
      · rw [RuleDef.size_relocateCopies]
        exact hadded _

/-! ## Grammars -/

theorem nodup_flatMap_set {α β : Type} {f : α → List β} {l : List α} (h : (l.flatMap f).Nodup)
    {a : α} (ha : (f a).Nodup) (hnew : ∀ b ∈ l, ∀ k ∈ f b, k ∉ f a) (i : Nat) :
    ((l.set i a).flatMap f).Nodup := by
  induction l generalizing i with
  | nil => exact h
  | cons b l ih =>
      obtain ⟨hb, hl, hapart⟩ := List.nodup_append.mp h
      obtain ⟨hnewb, hnew⟩ := List.forall_mem_cons.mp hnew
      cases i with
      | zero =>
          refine List.nodup_append.mpr ⟨ha, hl, ?_⟩
          rintro k hk _ hk' rfl
          obtain ⟨c, hc, hkc⟩ := List.mem_flatMap.mp hk'
          exact hnew c hc k hkc hk
      | succ i =>
          refine List.nodup_append.mpr ⟨hb, ih hl hnew i, ?_⟩
          rintro k hk _ hk' rfl
          obtain ⟨c, hc, hkc⟩ := List.mem_flatMap.mp hk'
          rcases List.mem_or_eq_of_mem_set hc with hc | rfl
          · exact hapart k hk k (List.mem_flatMap.mpr ⟨c, hc, hkc⟩) rfl
          · exact hnewb k hk hkc

namespace Grammar

/-- No two constructs in the definitions of a grammar have the same key, and no two rules have the
same definition. -/
structure Apart (grammar : Grammar) : Prop where
  keys : (grammar.source.rules.flatMap RuleDef.keys).Nodup
  below : ∀ definition ∈ grammar.source.rules, ∀ key ∈ definition.keys,
    key.1 < grammar.tokens.size
  places : (grammar.rules.map (·.defIndex)).Pairwise (· < ·)

/-- The rules of a text are told apart. -/
theorem apart_collect {file source : String} {g : GrammarDef}
    (h : GrammarDef.parse file source = .ok g) : (ofDef file g).collect.1.Apart := by
  obtain ⟨hnodup, hbelow⟩ := GrammarDef.keys_of_parse h
  refine ⟨hnodup, hbelow, ?_⟩
  refine List.Pairwise.sublist (places_collectFrom (ofDef file g) g.rules.zipIdx []) ?_
  rw [List.zipIdx_map_snd]
  exact List.pairwise_lt_range'

theorem Apart.withTokens {grammar : Grammar} (h : grammar.Apart) {tokens : TokenTable}
    (hsize : grammar.tokens.size ≤ tokens.size) :
    (grammar.withTokens tokens).Apart :=
  ⟨h.keys, fun d hd key hkey => Nat.lt_of_lt_of_le (h.below d hd key hkey) hsize, h.places⟩

theorem Apart.replaceBy {grammar : Grammar} (h : grammar.Apart) {name : String} {rule : Rule}
    (hrule : grammar.rule? name = some rule) {definition : RuleDef}
    (hnodup : definition.keys.Nodup) (hbelow : ∀ key ∈ definition.keys, key.1 < grammar.tokens.size)
    (hnew : ∀ d ∈ grammar.source.rules, ∀ key ∈ d.keys, key ∉ definition.keys)
    (lr : LeftRecursion) : (grammar.replaceBy rule lr definition).1.Apart := by
  obtain ⟨hkeys, -⟩ := lr.keys_link { definition with nameToken := rule.nameToken }
  unfold Grammar.replaceBy
  generalize lr.link { definition with nameToken := rule.nameToken } = linked at hkeys
  obtain ⟨lr', definition'⟩ := linked
  have hkeys : definition'.keys = definition.keys := hkeys
  rw [← hkeys] at hnodup hbelow hnew
  refine ⟨nodup_flatMap_set h.keys hnodup hnew _, fun d hd => ?_, ?_⟩
  · rcases List.mem_or_eq_of_mem_set hd with hd | rfl
    · exact h.below d hd
    · exact hbelow
  · -- the new rule is defined in the place of the one it stands for
    dsimp only [setRule, setDefinition]
    refine Eq.mp (congrArg (List.Pairwise (· < ·)) (Eq.symm ?_)) h.places
    exact map_set_findIdx hrule (f := (·.defIndex)) rfl

theorem Apart.replaceRule {grammar : Grammar} (h : grammar.Apart) (layout : Layout)
    (name : String) : (grammar.replaceRule layout name).grammar.Apart := by
  rcases grammar.replaceRule_cases layout name with ⟨-, hsame | ⟨source, text, hsame⟩⟩ |
    ⟨rule, written, issues, analysis, definition, tokens, hrule, -, -, hparse, _, rfl, heq⟩
  · rw [hsame]
    exact h
  · rw [hsame]
    exact h.withTokens (RuleDef.size_le_of_parse ..)
  · have hsize : grammar.tokens.size ≤ tokens.size := by
      have hsize := RuleDef.size_le_of_parse s!"<{rule.name} precedence rule>"
        (layout.rule (analysis.operatorRule written)) grammar.tokens
      rw [hparse] at hsize
      exact hsize
    obtain ⟨hnodup, hwithin⟩ := RuleDef.keys_of_parse hparse
    rw [heq]
    refine (h.withTokens hsize).replaceBy hrule hnodup (fun key hkey => (hwithin key hkey).2)
      (fun d hd key hkey hkey' => ?_) _
    exact absurd (h.below d hd key hkey) (Nat.not_lt.mpr (hwithin key hkey').1)

theorem Apart.replaceRules {grammar : Grammar} (h : grammar.Apart) (layout : Layout)
    (names : List String) : (grammar.replaceRules layout names).1.Apart := by
  induction names generalizing grammar with
  | nil => exact h
  | cons name names ih => exact ih (h.replaceRule layout name)

theorem Apart.eliminate {grammar : Grammar} (h : grammar.Apart) (layout : Layout) :
    (grammar.eliminate layout).1.Apart := by
  have hreplaced := h.replaceRules layout grammar.leftRecursiveRules
  have hkeys : ∀ names (d : RuleDef), (demandAny names d).keys = d.keys :=
    fun names d => (keys_demandAny names d).1
  refine ⟨?_, fun d hd => ?_, hreplaced.places⟩
  · unfold Grammar.eliminate
    dsimp only
    rw [List.flatMap_map]
    simp only [hkeys]
    exact hreplaced.keys
  · obtain ⟨d', hd', rfl⟩ := List.mem_map.mp hd
    rw [hkeys]
    exact hreplaced.below d' hd'

/-- What stands at growing places of a list is part of it. -/
theorem sublist_filterMap_getElem? {α : Type} (l : List α) {places : List Nat}
    (h : places.Pairwise (· < ·)) {n : Nat} (hn : ∀ i ∈ places, n ≤ i) :
    (places.filterMap (l[·]?)).Sublist (l.drop n) := by
  induction places generalizing n with
  | nil => exact List.nil_sublist _
  | cons i places ih =>
      obtain ⟨hi, h⟩ := List.pairwise_cons.mp h
      obtain ⟨hni, hn⟩ := List.forall_mem_cons.mp hn
      cases ha : l[i]? with
      | none =>
          rw [List.filterMap_cons_none ha]
          exact ih h hn
      | some a =>
          rw [List.filterMap_cons_some ha]
          obtain ⟨hlt, rfl⟩ := List.getElem?_eq_some_iff.mp ha
          refine List.Sublist.trans ?_ (List.drop_sublist_drop_left l hni)
          rw [List.drop_eq_getElem_cons hlt]
          exact (ih h hi).cons_cons _

/-- No two constructs in the rules of a parser have the same key. -/
def ParserApart (grammar : Grammar) : Prop :=
  ((grammar.parserRules.filterMap grammar.definition?).flatMap RuleDef.keys).Nodup

instance (grammar : Grammar) : Decidable grammar.ParserApart :=
  inferInstanceAs (Decidable (List.Nodup _))

theorem Apart.parser {grammar : Grammar} (h : grammar.Apart) : grammar.ParserApart := by
  have hplaces := h.places.sublist
    ((List.filter_sublist : grammar.parserRules.Sublist grammar.rules).map (·.defIndex))
  have hpart := sublist_filterMap_getElem? grammar.source.rules hplaces fun i _ => Nat.zero_le i
  rw [List.filterMap_map] at hpart
  exact h.keys.sublist (hpart.flatMap _)

end Grammar

end GrammarCompiler
