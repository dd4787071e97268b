import GrammarCompiler.Grammar.Basic
import Mathlib.Data.List.Nodup

/-!
# Numbers of rules

The rules of each kind are numbered in their order, parser rules and token rules each from 0 on.
Collecting rules numbers them so.
-/

namespace GrammarCompiler

/-- What a filter lets through comes behind as many others as its place tells. -/
theorem exists_split_of_filter {α : Type} {p : α → Bool} {l : List α} {i : Nat} {a : α}
    (h : (l.filter p)[i]? = some a) :
    ∃ before after, l = before ++ a :: after ∧ (before.filter p).length = i ∧ p a = true := by
  induction l generalizing i with
  | nil => cases h
  | cons x l ih =>
      rw [List.filter_cons] at h
      split at h
      · next hx =>
        cases i with
        | zero =>
            rw [List.getElem?_cons_zero, Option.some.injEq] at h
            exact ⟨[], l, by rw [h]; rfl, rfl, h ▸ hx⟩
        | succ i =>
            obtain ⟨before, after, rfl, hlen, ha⟩ := ih h
            refine ⟨x :: before, after, rfl, ?_, ha⟩
            rw [List.filter_cons_of_pos hx, List.length_cons, hlen]
      · next hx =>
        obtain ⟨before, after, rfl, hlen, ha⟩ := ih h
        refine ⟨x :: before, after, rfl, ?_, ha⟩
        rw [List.filter_cons_of_neg hx, hlen]

namespace Grammar

/-- A rule that is found by a name has this name. -/
theorem name_of_rule? {grammar : Grammar} {name : String} {rule : Rule}
    (h : grammar.rule? name = some rule) : rule.name = name := by
  simpa using List.find?_some h

/-- A rule is found by its name if no other rule has the name. -/
theorem rule?_of_mem {grammar : Grammar} (hnodup : (grammar.rules.map (·.name)).Nodup) {rule : Rule}
    (h : rule ∈ grammar.rules) : grammar.rule? rule.name = some rule := by
  have hsome : (grammar.rule? rule.name).isSome :=
    List.find?_isSome.mpr ⟨rule, h, beq_self_eq_true _⟩
  obtain ⟨found, hfound⟩ := Option.isSome_iff_exists.mp hsome
  rw [hfound, List.inj_on_of_nodup_map hnodup (List.mem_of_find?_eq_some hfound) h
    (name_of_rule? hfound)]

/-- The rules of each kind are numbered from 0 on, in their order. -/
def Numbered (grammar : Grammar) : Prop :=
  ∀ (before after : List Rule) (rule : Rule), grammar.rules = before ++ rule :: after →
    rule.index = before.countP (·.isLexerRule == rule.isLexerRule)

/-- The number of a rule of a parser is its place among them. -/
theorem Numbered.parserRules_index {grammar : Grammar} (h : grammar.Numbered) (i : Nat)
    (rule : Rule) (hrule : grammar.parserRules[i]? = some rule) : rule.index = i := by
  obtain ⟨before, after, hsplit, hlen, hkind⟩ := exists_split_of_filter hrule
  rw [h before after rule hsplit, ← hlen, List.countP_eq_length_filter]
  have hkind : rule.isLexerRule = false := by simpa using hkind
  congr 2
  funext r
  rw [hkind]
  cases r.isLexerRule <;> rfl

/-- The number of a rule of a lexer is its place among them. -/
theorem Numbered.lexerRules_index {grammar : Grammar} (h : grammar.Numbered) (i : Nat)
    (rule : Rule) (hrule : grammar.lexerRules[i]? = some rule) : rule.index = i := by
  obtain ⟨before, after, hsplit, hlen, hkind⟩ := exists_split_of_filter hrule
  rw [h before after rule hsplit, ← hlen, List.countP_eq_length_filter]
  congr 2
  funext r
  rw [hkind]
  cases r.isLexerRule <;> rfl

/-- Numbers depend on nothing of a rule but its kind. -/
theorem Numbered.congr {grammar other : Grammar} (h : grammar.Numbered)
    (hsame : other.rules.map (fun r => (r.isLexerRule, r.index)) =
      grammar.rules.map fun r => (r.isLexerRule, r.index)) : other.Numbered := by
  intro before after rule hsplit
  rw [hsplit, List.map_append, List.map_cons] at hsame
  obtain ⟨before', rest', hrules, hbefore, hrest⟩ := List.map_eq_append_iff.mp hsame.symm
  obtain ⟨rule', after', rfl, hrule, -⟩ := List.map_eq_cons_iff.mp hrest
  obtain ⟨hkind, hindex⟩ := Prod.mk.inj hrule
  rw [← hindex, h before' after' rule' hrules]
  have hcount : ∀ l : List Rule, l.countP (·.isLexerRule == rule.isLexerRule) =
      (l.map fun r => (r.isLexerRule, r.index)).countP (·.1 == rule.isLexerRule) := by
    intro l
    rw [List.countP_map]
    rfl
  rw [hcount before, ← hbefore, ← hcount, hkind]

theorem collectFrom_numbered (grammar : Grammar) (definitions : List (RuleDef × Nat))
    (before : List Rule) (hbefore : ∀ b r a, before = b ++ r :: a →
      r.index = b.countP (·.isLexerRule == r.isLexerRule)) :
    ∀ b r a, before ++ (grammar.collectFrom before definitions).1 = b ++ r :: a →
      r.index = b.countP (·.isLexerRule == r.isLexerRule) := by
  induction definitions generalizing before with
  | nil =>
      intro b r a h
      rw [collectFrom, List.append_nil] at h
      exact hbefore b r a h
  | cons definition definitions ih =>
      obtain ⟨definition, place⟩ := definition
      rw [collectFrom]
      split
      · exact ih before hbefore
      · generalize hrule : Rule.ofDef definition place
          (before.countP (·.isLexerRule == definition.isLexerRule)) = rule
        have hnew : ∀ b r a, before ++ [rule] = b ++ r :: a →
            r.index = b.countP (·.isLexerRule == r.isLexerRule) := by
          intro b r a h
          rcases List.append_eq_append_iff.mp h with ⟨c, hb, hc⟩ | ⟨c, hb, hc⟩
          · cases c with
            | nil =>
                rw [List.nil_append] at hc
                obtain ⟨rfl, -⟩ := List.cons.inj hc
                rw [List.append_nil] at hb
                rw [hb, ← hrule]
                rfl
            | cons x c =>
                have := (List.cons.inj hc).2
                simp at this
          · cases c with
            | nil =>
                rw [List.nil_append] at hc
                obtain ⟨rfl, -⟩ := List.cons.inj hc
                rw [List.append_nil] at hb
                rw [← hb, ← hrule]
                rfl
            | cons x c =>
                obtain ⟨rfl, -⟩ := List.cons.inj hc
                exact hbefore b _ c hb
        have := ih (before ++ [rule]) hnew
        rw [List.append_assoc] at this
        subst hrule
        exact this

theorem numbered_collect (grammar : Grammar) : grammar.collect.1.Numbered :=
  fun before after rule h =>
    grammar.collectFrom_numbered grammar.source.rules.zipIdx [] (by simp) before rule after h

end Grammar

end GrammarCompiler
