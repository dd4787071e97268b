import GrammarCompiler.Proofs.Ast.Rules
import GrammarCompiler.Proofs.TokenTree.Marks
import GrammarCompiler.Proofs.TokenTree.Names
import GrammarCompiler.Recursion.Layout

/-!
# The name of a rule that is read again

The text of a rule without left recursion begins with the name of the rule, and the rule that is
read from it has that name. There is one exception: a rule whose name is the mark of helper rules
loses it to the word behind, which then is that of its results.
-/

namespace GrammarCompiler

open Text
open TokenTree (leaf group flats)

namespace Layout

def behind (rule : OperatorRule) : Lexeme :=
  match rule.args, rule.returns with
  | some _, _ => .opening .bracket
  | none, some _ => .leaf (.ident "returns")
  | none, none => .leaf (.punct ':' false)

theorem lexes_gap {c : Char} {cs rest : List Char} {ls : List Lexeme} (hc : isGap c = true)
    (h : Lexes cs ls rest) : Lexes (c :: cs) ls rest :=
  (Lexes.gap (Lexeme.head_gap hc)).trans h

theorem lexes_word {w rest : List Char} (h : isName (String.ofList w) = true)
    (hrest : Clear rest) : Lexes (w ++ rest) [.leaf (.ident (String.ofList w))] rest := by
  cases w with
  | nil => exact absurd h (by decide)
  | cons c w => exact Lexes.cons (Lexeme.head_word h hrest) (.refl rest)

theorem lexes_bracket (cs : List Char) :
    Lexes ("[".toList ++ cs) [.opening .bracket] cs := by
  have h : Lexeme.head '[' cs = .lexeme (.opening .bracket) 0 :=
    Lexeme.head_delimiter (by decide) (by decide) (by decide) (by decide) (by decide)
  exact Lexes.lexeme h

theorem lexes_returns (cs : List Char) :
    Lexes (" returns [".toList ++ cs) [.leaf (.ident "returns")] (" [".toList ++ cs) :=
  lexes_gap (by decide) (lexes_word (w := "returns".toList) (by decide) (clear_cons (by decide)))

theorem lexes_colon (cs : List Char) :
    Lexes ("\n    :   ".toList ++ cs) [.leaf (.punct ':' false)] ("   ".toList ++ cs) :=
  lexes_gap (by decide) (lexes_gap (by decide) (lexes_gap (by decide) (lexes_gap (by decide)
    (lexes_gap (by decide) (Lexes.lexeme (Lexeme.head_punct (by decide) (by decide)
      (Lexeme.noComment_of_ne (by decide))))))))

theorem lexes_heading (layout : Layout) {rule : OperatorRule} (hname : isName rule.name = true) :
    (layout.rule rule).toList.head? ≠ some Scan.byteOrderMark ∧
      ∃ rest, Lexes (layout.rule rule).toList [.leaf (.ident rule.name), behind rule] rest := by
  have hname' : isName (String.ofList rule.name.toList) = true := by
    rwa [String.ofList_toList]
  obtain ⟨rest, rest', htext, hclear, hlexes⟩ :
      ∃ rest rest', (layout.rule rule).toList = rule.name.toList ++ rest ∧ Clear rest ∧
        Lexes rest [behind rule] rest' := by
    unfold Layout.rule heading behind
    simp only [String.toList_append, List.append_assoc]
    cases rule.args with
    | some args =>
        simp only [Option.elim_some, String.toList_append, List.append_assoc]
        exact ⟨_, _, rfl, clear_cons (by decide), lexes_bracket _⟩
    | none =>
        cases rule.returns with
        | some returns =>
            simp only [Option.elim_some, Option.elim_none, String.toList_append,
              List.append_assoc]
            exact ⟨_, _, rfl, clear_cons (by decide), lexes_returns _⟩
        | none => exact ⟨_, _, rfl, clear_cons (by decide), lexes_colon _⟩
  rw [htext]
  refine ⟨Lexeme.head?_ne_byteOrderMark hname rest, rest', ?_⟩
  have hword := lexes_word hname' hclear
  rw [String.ofList_toList] at hword
  exact hword.trans hlexes

end Layout

/-- The name that is read from the text of a rule: that of its results if the name is the mark of
helper rules and the results stand right behind it. -/
def OperatorRule.nameRead (rule : OperatorRule) : String :=
  if rule.name = "fragment" ∧ rule.args = none ∧ rule.returns.isSome then "returns" else rule.name

/-- Trees that begin with a word, read from their lexemes. -/
theorem startsWithWord_of_flats {heading more : List TokenTree} {joint : Bool} {p : Position}
    {text : String} {ls : List Lexeme}
    (h : flats (heading ++ leaf (.punct ':' joint) p :: more) = .leaf (.ident text) :: ls) :
    startsWithWord (heading ++ [leaf (.punct ':' joint) p]) = true := by
  cases heading with
  | nil => simp at h
  | cons t heading =>
      cases t with
      | leaf token q =>
          simp only [List.cons_append, TokenTree.flats_cons, TokenTree.flat_leaf, List.cons.injEq,
            Lexeme.leaf.injEq] at h
          rw [h.1]
          rfl
      | group delimiter opened closed body => simp at h

/-- The name of a rule among the lexemes it is read from. -/
theorem RuleDef.Spelled.name_eq {d : RuleDef} {i : Nat} {ts more : List TokenTree}
    (h : d.Spelled i ts) {rule : OperatorRule} {ls : List Lexeme}
    (hflats : flats (ts ++ more) = .leaf (.ident rule.name) :: Layout.behind rule :: ls) :
    d.name = rule.nameRead := by
  obtain ⟨-, -, mark, heading, body, p, joint, joint', q, r, rfl, hmark, -⟩ := h
  unfold OperatorRule.nameRead
  unfold Layout.behind at hflats
  generalize d.isFragment = isFragment at hmark
  cases hmark with
  | plain hplain =>
      -- a name that is the mark has no word behind it
      simp only [List.nil_append, List.cons_append, TokenTree.flats_cons, TokenTree.flat_leaf,
        List.append_assoc, List.cons.injEq, Lexeme.leaf.injEq, Leaf.ident.injEq] at hflats
      obtain ⟨hname, hrest⟩ := hflats
      rw [if_neg, hname]
      rintro ⟨hfragment, hargs, hreturns⟩
      obtain ⟨returns, hreturns⟩ := Option.isSome_iff_exists.mp hreturns
      rw [hargs, hreturns] at hrest
      rw [startsWithWord_of_flats hrest] at hplain
      cases hplain (hname.trans hfragment)
  | marked s =>
      simp only [List.nil_append, List.cons_append, TokenTree.flats_cons, TokenTree.flat_leaf,
        List.cons.injEq, Lexeme.leaf.injEq, Leaf.ident.injEq] at hflats
      obtain ⟨hname, hsecond, -⟩ := hflats
      split at hsecond
      · cases hsecond
      · next hargs hreturns =>
          rw [if_pos ⟨hname.symm, hargs, by rw [hreturns]; rfl⟩]
          injection hsecond with hsecond
          injection hsecond
      · injection hsecond with hsecond
        cases hsecond

/-- A rule that is read from the text of another has the name of the other, or that of its
results. -/
theorem RuleDef.name_of_parse {layout : Layout} {rule : OperatorRule}
    (hname : isName rule.name = true) {source : String} {table after : TokenTable} {d : RuleDef}
    (h : RuleDef.parse source (layout.rule rule) table = (.ok d, after)) :
    d.name = rule.nameRead := by
  obtain ⟨trees, d', hd', hparse, hrule, -, -, -⟩ := RuleDef.parse_eq_ok.mp h
  obtain ⟨used, htakes, hspelled⟩ := Cursor.takes_rule hrule
  obtain ⟨hmark, rest, hlexes⟩ := layout.lexes_heading hname
  obtain ⟨p, hflats⟩ := TokenTree.flats_of_lexes hparse hmark hlexes
  have hall : trees = used ++ d'.trees := htakes.1
  have hself : TokenTree.spelled (Layout.behind rule) = [Layout.behind rule] := by
    unfold Layout.behind
    split <;> rfl
  rw [hall, List.flatMap_cons, List.flatMap_cons, hself] at hflats
  exact hspelled.name_eq hflats

end GrammarCompiler
