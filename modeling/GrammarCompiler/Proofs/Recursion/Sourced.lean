import GrammarCompiler.Compile
import GrammarCompiler.Proofs.Ast.Rules
import GrammarCompiler.Proofs.Grammar.Built
import GrammarCompiler.Proofs.Recursion.Scanned

/-!
# Rules whose text can be written out

What a rule is rewritten from are its tokens and the code in its heading. In a grammar that is read
from a text, both can be written out and scanned again (`Grammar.stands_gather`), for every rule that
holds no option with a quoted literal for its value.
-/

namespace GrammarCompiler

open TokenTree (leaf group widths AllSound StandAt)

/-- Whether the parts of a rule stand in a table and can be written out. -/
structure RuleDef.Stands (table : TokenTable) (rule : RuleDef) : Prop where
  name : Text.isName rule.name = true
  arguments : ∃ ts, ArgumentsPrinted (rule.args.map (·.text)) ts
  results : ∃ ts, ResultsPrinted (rule.returns.map (·.text)) ts
  alts : ∀ alt ∈ rule.alts, ∃ i ts, alt.Stands table i ts

/-! ## The code in a heading -/

theorem Snippet.InBrackets.printed {code : Snippet} {i : Nat} {ts : List TokenTree}
    (h : code.InBrackets i ts) (hsound : AllSound ts) : ∃ t, CodePrinted code.text t := by
  obtain ⟨before, opened, closed, body, after, rfl, rfl⟩ := h
  obtain ⟨-, hsound⟩ := TokenTree.allSound_append.mp hsound
  exact ⟨_, opened, closed, body, rfl, rfl, hsound.code (by decide)⟩

theorem RuleDef.Spelled.arguments_printed {rule : RuleDef} {i : Nat} {ts : List TokenTree}
    (h : rule.Spelled i ts) (hsound : AllSound ts) :
    ∃ us, ArgumentsPrinted (rule.args.map (·.text)) us := by
  cases hargs : rule.args with
  | none => exact ⟨[], .none⟩
  | some code =>
      obtain ⟨t, ht⟩ := (h.codes code (.inl hargs)).printed hsound
      exact ⟨[t], .some ht⟩

theorem RuleDef.Spelled.results_printed {rule : RuleDef} {i : Nat} {ts : List TokenTree}
    (h : rule.Spelled i ts) (hsound : AllSound ts) :
    ∃ us, ResultsPrinted (rule.returns.map (·.text)) us := by
  cases hreturns : rule.returns with
  | none => exact ⟨[], .none⟩
  | some code =>
      obtain ⟨t, ht⟩ := (h.codes code (.inr hreturns)).printed hsound
      exact ⟨_, .some ht⟩

/-! ## Alternatives -/

/-- Each alternative of a list stands where its trees do. -/
theorem Alt.AllSpelled.stands {table : TokenTable} (htable : table.Indexed) {as : List Alt} {i : Nat}
    {ts : List TokenTree} (h : Alt.AllSpelled i ts as) (hts : StandAt table.written i ts)
    (hsound : AllSound ts) (hproper : Alt.allProper as = true)
    (hunquoted : UnquotedIn (Alt.listNodes as) table.tokens.toList) :
    ∀ alt ∈ as, ∃ i ts, alt.Stands table i ts := by
  induction as generalizing i ts with
  | nil => exact nofun
  | cons a as ih =>
      rw [Alt.AllSpelled] at h
      obtain ⟨front, back, rfl, ha, hback⟩ := h
      obtain ⟨hfront, hsound'⟩ := TokenTree.allSound_append.mp hsound
      rw [Alt.allProper, Bool.and_eq_true] at hproper
      rw [Alt.listNodes] at hunquoted
      refine List.forall_mem_cons.mpr ⟨⟨i, front, ha, hproper.1, hfront,
        htable.numbered_slice hts.front, fun e he x hx t ht => ?_⟩, ?_⟩
      · exact hunquoted e (List.mem_append_left _ he) x hx t
          (List.mem_of_mem_take (List.mem_of_mem_drop ht))
      · rcases hback with ⟨rfl, -⟩ | ⟨joint, p, rest, rfl, -, has⟩
        · exact nofun
        · exact ih has hts.back.tail hsound'.tail hproper.2
            fun e he => hunquoted e (List.mem_append_right _ he)

/-- A rule that is read from trees in a table stands in it. -/
theorem RuleDef.Spelled.stands {table : TokenTable} (htable : table.Indexed) {rule : RuleDef} {i : Nat}
    {ts : List TokenTree} (h : rule.Spelled i ts) (hts : StandAt table.written i ts)
    (hsound : AllSound ts) (hname : Text.isName rule.name = true)
    (hproper : Alt.allProper rule.alts = true)
    (hunquoted : UnquotedIn rule.nodes table.tokens.toList) : rule.Stands table := by
  refine ⟨hname, h.arguments_printed hsound, h.results_printed hsound, ?_⟩
  obtain ⟨-, -, mark, heading, body, p, joint, joint', q, r, rfl, -, -, halts, -⟩ := h
  have hbody : StandAt table.written (i + widths mark + 1 + widths heading + 1) body := by
    have hheading := hts.back.tail
    rw [TokenTree.width_leaf] at hheading
    exact hheading.back.tail.front
  simp only [TokenTree.allSound_append, TokenTree.allSound_cons] at hsound
  exact halts.stands htable hbody hsound.2.2.2.2.1 hproper hunquoted

/-! ## Grammars -/

theorem RulesSpelled.stands {table : TokenTable} (htable : table.Indexed) {rules : List RuleDef}
    {i : Nat} {ts : List TokenTree} (h : RulesSpelled i ts rules) (hts : StandAt table.written i ts)
    (hsound : AllSound ts) (hnames : ∀ rule ∈ rules, Text.isName rule.name = true)
    (hproper : ∀ rule ∈ rules, Alt.allProper rule.alts = true) :
    ∀ rule ∈ rules, UnquotedIn rule.nodes table.tokens.toList → rule.Stands table := by
  induction rules generalizing i ts with
  | nil => exact nofun
  | cons rule rules ih =>
      obtain ⟨front, back, rfl, hrule, hrules⟩ := h
      obtain ⟨hfront, hback⟩ := TokenTree.allSound_append.mp hsound
      obtain ⟨hname, hnames⟩ := List.forall_mem_cons.mp hnames
      obtain ⟨hproper', hproper⟩ := List.forall_mem_cons.mp hproper
      exact List.forall_mem_cons.mpr ⟨fun hunquoted => hrule.stands htable hts.front hfront
        hname hproper' hunquoted, ih hrules hts.back hback hnames hproper⟩

/-- The rules of a text stand in its table. -/
theorem GrammarDef.stands_of_parse {file source : String} {g : GrammarDef}
    (h : GrammarDef.parse file source = .ok g) : ∀ rule ∈ g.rules,
      UnquotedIn rule.nodes g.tokens.tokens.toList → rule.Stands g.tokens := by
  have hnames := GrammarDef.isName_of_parse h
  have hproper := GrammarDef.proper_of_parse h
  unfold GrammarDef.parse at h
  obtain ⟨trees, htrees, hread⟩ := ok_of_bind h
  obtain ⟨htokens, front, back, hsplit, hspelled⟩ := Cursor.takes_grammar hread
  obtain rfl : trees = front ++ back := hsplit
  have hindexed : g.tokens.Indexed := htokens ▸ TokenTable.indexed_empty.addSource file _
  have hwritten : g.tokens.written = TokenTree.allWritten (front ++ back) := by
    rw [htokens, TokenTable.written_addSource]
    rfl
  have hstand : StandAt g.tokens.written (0 + widths front) back :=
    StandAt.back ⟨[], [], by simpa using hwritten, rfl⟩
  have hsound := TokenTree.allSound_of_parse (readTrees_eq_ok.mp htrees)
  exact hspelled.stands hindexed hstand (TokenTree.allSound_append.mp hsound).2 hnames hproper

namespace Grammar

/-- What no step of a fold changes. -/
theorem foldl_keeps {α β γ : Type} {f : α → β → α} (view : α → γ) (h : ∀ a b, view (f a b) = view a)
    (a : α) (bs : List β) : view (bs.foldl f a) = view a := by
  induction bs generalizing a with
  | nil => rfl
  | cons b bs ih => exact (ih (f a b)).trans (h a b)

theorem imports_takeIn (source other : GrammarDef) :
    (takeIn source other).imports = source.imports := by
  unfold takeIn
  rw [foldl_keeps GrammarDef.imports, foldl_keeps GrammarDef.imports]
  · intro source rule
    unfold takeRule
    split <;> rfl
  · intro source token
    unfold takeToken
    split <;> rfl

theorem imports_integrate (grammar : Grammar) (library : Library) (report : Report) :
    (grammar.integrate library report).1.source.imports = grammar.source.imports := by
  refine foldl_keeps (fun state : Grammar × Report => state.1.source.imports) ?_ _ _
  rintro ⟨grammar, report⟩ ⟨name, place⟩
  unfold importOne
  dsimp only
  split
  · rfl
  · split
    · rfl
    · exact imports_takeIn ..

/-- A grammar that imports nothing is that of its text. -/
theorem exists_parse_of_gather {library : Library} {file source : String} {grammar : Grammar}
    {report : Report} (h : gather library file source = (some grammar, report))
    (himports : grammar.source.imports = []) :
    ∃ g, GrammarDef.parse file source = .ok g ∧ grammar = (ofDef file g).collect.1 := by
  unfold gather at h
  split at h
  · cases h
  next g report' hload =>
  generalize hall : (ofDef file g).integrate library report' = state at h
  obtain ⟨whole, report''⟩ := state
  obtain ⟨hgrammar, -⟩ := Prod.mk.inj h
  obtain rfl : whole.collect.1 = grammar := Option.some.inj hgrammar
  have hparse : GrammarDef.parse file source = .ok g := by
    unfold Report.load at hload
    dsimp only at hload
    split at hload
    · next hparse => exact Option.some.inj (Prod.mk.inj hload).1 ▸ hparse
    · cases hload
  have hnone : g.imports = [] := by
    rw [← himports]
    exact (hall ▸ imports_integrate (ofDef file g) library report').symm
  -- nothing is imported, so all rules are those of the text
  unfold integrate at hall
  rw [show (ofDef file g).source.imports = [] from hnone, List.foldl_nil] at hall
  obtain ⟨rfl, -⟩ := Prod.mk.inj hall
  exact ⟨g, hparse, rfl⟩

/-- The rules of a grammar that imports nothing stand in its table. -/
theorem stands_gather {library : Library} {file source : String} {grammar : Grammar}
    {report : Report} (h : gather library file source = (some grammar, report))
    (himports : grammar.source.imports = []) :
    ∀ rule ∈ grammar.source.rules,
      UnquotedIn rule.nodes grammar.tokens.tokens.toList → rule.Stands grammar.tokens := by
  obtain ⟨g, hparse, rfl⟩ := exists_parse_of_gather h himports
  exact GrammarDef.stands_of_parse hparse

end Grammar

end GrammarCompiler
