import GrammarCompiler.Ast.Read
import GrammarCompiler.Proofs.Ast.Descent

/-!
# What rules are read from

A rule is spelled by a heading, its alternatives between a colon and a semicolon, and nothing else
(`RuleDef.Spelled`). The rules of a grammar stand one behind the other at the end of its trees.
-/

namespace GrammarCompiler

open TokenTree (leaf group widths)

def startsWithWord : List TokenTree → Bool
  | .leaf (.ident _) _ :: _ => true
  | _ => false

/-- The mark of a helper rule. Without a mark, the rule is named by its first word even if that is
the word of the mark. -/
inductive MarkSpelled (name : String) (rest : List TokenTree) : Bool → List TokenTree → Prop
  | plain : (name = "fragment" → startsWithWord rest = false) → MarkSpelled name rest false []
  | marked (p : Text.Position) : MarkSpelled name rest true [leaf (.ident "fragment") p]

/-- Whether a piece of embedded code stands in brackets among trees, the first token of which is
`i`. -/
def Snippet.InBrackets (code : Snippet) (i : Nat) (ts : List TokenTree) : Prop :=
  ∃ before opened closed body after, ts = before ++ group .bracket opened closed body :: after ∧
    code = ⟨TokenTree.print body, .none, .single (i + widths before)⟩

theorem Snippet.InBrackets.append {code : Snippet} {i : Nat} {ts : List TokenTree}
    (front : List TokenTree) (h : code.InBrackets (i + widths front) ts) (back : List TokenTree) :
    code.InBrackets i (front ++ ts ++ back) := by
  obtain ⟨before, opened, closed, body, after, rfl, rfl⟩ := h
  exact ⟨front ++ before, opened, closed, body, after ++ back, by simp, by
    rw [TokenTree.widths_append, Nat.add_assoc]⟩

theorem ArgumentsSpelled.inBrackets {code : Snippet} {i : Nat} {ts : List TokenTree}
    (h : ArgumentsSpelled (Option.some code) i ts) : code.InBrackets i ts := by
  cases h with
  | some _ opened closed body => exact ⟨[], opened, closed, body, [], rfl, rfl⟩

/-- The trees a rule is read from. -/
structure RuleDef.Spelled (rule : RuleDef) (i : Nat) (ts : List TokenTree) : Prop where
  extent_eq : rule.extent = .across i ts
  codes : ∀ code, rule.args = some code ∨ rule.returns = some code → code.InBrackets i ts
  parts : ∃ mark heading body p joint joint' q r,
    ts = mark ++ leaf (.ident rule.name) p ::
      (heading ++ leaf (.punct ':' joint) q :: (body ++ [leaf (.punct ';' joint') r])) ∧
    MarkSpelled rule.name (heading ++ [leaf (.punct ':' joint) q]) rule.isFragment mark ∧
    rule.nameToken = i + widths mark ∧
    Alt.AllSpelled (i + widths mark + 1 + widths heading + 1) body rule.alts ∧
    (∀ a ∈ rule.alts.head?, rule.block.extent.start = a.extent.start) ∧
    ∀ a ∈ rule.alts.getLast?, rule.block.extent.stop = a.extent.stop

def RulesSpelled (i : Nat) (ts : List TokenTree) : List RuleDef → Prop
  | [] => ts = []
  | rule :: rules => ∃ front back, ts = front ++ back ∧ rule.Spelled i front ∧
      RulesSpelled (i + widths front) back rules

namespace Cursor

theorem takes_word {c : Cursor} {text : String} {u : Unit} {d : c.Shorter}
    (h : c.word text = .ok (u, d)) : ∃ p, c.Takes [leaf (.ident text) p] d.1 := by
  unfold word at h
  split at h
  · next hat hident =>
      obtain ⟨rfl, rfl⟩ := Prod.mk.inj (Except.ok.inj h)
      obtain ⟨-, p, htakes⟩ := takes_ident hident
      unfold atWord at hat
      rw [htakes.1] at hat
      simp only [List.cons_append, List.nil_append, beq_iff_eq] at hat
      exact ⟨p, hat ▸ htakes⟩
  · cases h

theorem takes_clause {c : Cursor} {keyword : String} {code : Option Snippet} {d : c.Rest}
    (h : c.clause keyword = .ok (code, d)) :
    ∃ used, c.Takes used d.1 ∧ ∀ s ∈ code, s.InBrackets c.index used := by
  unfold clause at h
  split at h
  · obtain ⟨⟨_, d₁, hd₁⟩, hword, h⟩ := ok_of_bind h
    obtain ⟨⟨args, d₂, hd₂⟩, hargs, h⟩ := ok_of_bind h
    obtain ⟨rfl, rfl⟩ := Prod.mk.inj (Except.ok.inj h)
    obtain ⟨p, htakes⟩ := takes_word hword
    obtain ⟨-, used, htakes', -, hspelled⟩ := takes_arguments hargs
    refine ⟨_, htakes.trans htakes', fun s hs => ?_⟩
    obtain rfl := Option.some.inj hs
    have hspelled : args.InBrackets (c.index + widths [leaf (.ident keyword) p]) used :=
      htakes.2 ▸ hspelled.inBrackets
    simpa using hspelled.append _ []
  · obtain ⟨rfl, rfl⟩ := Prod.mk.inj (Except.ok.inj h)
    exact ⟨[], .refl _, nofun⟩

theorem takes_braced {α : Type} {c : Cursor} {keyword : String}
    {body : Cursor → Except SyntaxError α} {value : α} {d : c.Shorter}
    (h : c.braced keyword body = .ok (value, d)) : ∃ used, c.Takes used d.1 := by
  unfold braced at h
  obtain ⟨⟨_, d₁, hd₁⟩, hword, h⟩ := ok_of_bind h
  obtain ⟨p, htakes⟩ := takes_word hword
  dsimp only at h
  split at h
  · next opened closed trees rest htrees =>
      obtain ⟨value', -, h⟩ := ok_of_bind h
      obtain ⟨rfl, rfl⟩ := Prod.mk.inj (Except.ok.inj h)
      exact ⟨_, htakes.trans (takes_behind htrees (by simp))⟩
  · cases h

theorem takes_ruleSettings {c : Cursor} {u : Unit} {d : c.Rest}
    (h : c.ruleSettings = .ok (u, d)) : ∃ used, c.Takes used d.1 := by
  unfold ruleSettings at h
  split at h
  · obtain ⟨⟨_, d₁, hd₁⟩, hbraced, h⟩ := ok_of_bind h
    obtain ⟨rfl, rfl⟩ := Prod.mk.inj (Except.ok.inj h)
    exact takes_braced hbraced
  · obtain ⟨rfl, rfl⟩ := Prod.mk.inj (Except.ok.inj h)
    exact ⟨[], .refl _⟩

theorem takes_ruleArguments {c : Cursor} {args : Option Snippet} {d : c.Rest}
    (h : c.ruleArguments = .ok (args, d)) :
    ∃ used, c.Takes used d.1 ∧ ∀ s ∈ args, s.InBrackets c.index used := by
  unfold ruleArguments at h
  split at h
  · obtain ⟨⟨args', d₁, hd₁⟩, hargs, h⟩ := ok_of_bind h
    obtain ⟨rfl, rfl⟩ := Prod.mk.inj (Except.ok.inj h)
    obtain ⟨-, used, htakes, -, hspelled⟩ := takes_arguments hargs
    refine ⟨_, htakes, fun s hs => ?_⟩
    obtain rfl := Option.some.inj hs
    exact hspelled.inBrackets
  · obtain ⟨rfl, rfl⟩ := Prod.mk.inj (Except.ok.inj h)
    exact ⟨[], .refl _, nofun⟩

theorem atIdent_eq (c : Cursor) : c.atIdent = startsWithWord c.trees := by
  unfold atIdent startsWithWord
  split <;> simp_all

theorem takes_fragmentMark {c : Cursor} {isFragment : Bool} {d : c.Rest}
    (h : c.fragmentMark = .ok (isFragment, d)) :
    (isFragment = false ∧ d.1 = c ∧ (c.atWord "fragment" && c.second.atIdent) = false) ∨
      (isFragment = true ∧ ∃ p, c.Takes [leaf (.ident "fragment") p] d.1) := by
  unfold fragmentMark at h
  split at h
  · obtain ⟨⟨_, d₁, hd₁⟩, hword, h⟩ := ok_of_bind h
    obtain ⟨rfl, rfl⟩ := Prod.mk.inj (Except.ok.inj h)
    exact .inr ⟨rfl, takes_word hword⟩
  · next hmark =>
      obtain ⟨rfl, rfl⟩ := Prod.mk.inj (Except.ok.inj h)
      exact .inl ⟨rfl, rfl, by simpa using hmark⟩

/-- A rule is spelled by the trees it is read from. -/
theorem takes_rule {c : Cursor} {rule : RuleDef} {d : c.Shorter} (h : c.rule = .ok (rule, d)) :
    ∃ used, c.Takes used d.1 ∧ rule.Spelled c.index used := by
  unfold Cursor.rule at h
  obtain ⟨⟨isFragment, d₁, hd₁⟩, hmark, h⟩ := ok_of_bind h
  obtain ⟨⟨⟨name, nameToken⟩, d₂, hd₂⟩, hname, h⟩ := ok_of_bind h
  obtain ⟨⟨args, d₃, hd₃⟩, hargs, h⟩ := ok_of_bind h
  obtain ⟨⟨returns, d₄, hd₄⟩, hreturns, h⟩ := ok_of_bind h
  obtain ⟨⟨locals, d₅, hd₅⟩, hlocals, h⟩ := ok_of_bind h
  obtain ⟨⟨_, d₆, hd₆⟩, hsettings, h⟩ := ok_of_bind h
  obtain ⟨⟨colon, d₇, hd₇⟩, hcolon, h⟩ := ok_of_bind h
  obtain ⟨⟨as, d₈, hd₈⟩, halts, h⟩ := ok_of_bind h
  obtain ⟨⟨semicolon, d₉, hd₉⟩, hsemicolon, h⟩ := ok_of_bind h
  obtain ⟨rfl, rfl⟩ := Prod.mk.inj (Except.ok.inj h)
  obtain ⟨rfl, p, htakesName⟩ := takes_ident hname
  obtain ⟨used₃, htakes₃, hargsIn⟩ := takes_ruleArguments hargs
  obtain ⟨used₄, htakes₄, hreturnsIn⟩ := takes_clause hreturns
  obtain ⟨used₅, htakes₅, -⟩ := takes_clause hlocals
  obtain ⟨used₆, htakes₆⟩ := takes_ruleSettings hsettings
  obtain ⟨rfl, joint, q, htakesColon⟩ := takes_punct hcolon
  obtain ⟨body, htakesBody, hbody⟩ := takes_alts d₇ halts
  obtain ⟨rfl, joint', r, htakesSemicolon⟩ := takes_punct hsemicolon
  have hheading := htakes₃.trans (htakes₄.trans (htakes₅.trans htakes₆))
  have hcodes : ∀ code, args = some code ∨ returns = some code →
      code.InBrackets d₂.index (used₃ ++ (used₄ ++ (used₅ ++ used₆))) := by
    rintro code (hcode | hcode)
    · exact Snippet.InBrackets.append [] (hargsIn code hcode) _
    · have hindex : d₃.index = d₂.index + widths used₃ := htakes₃.2
      have hreturn := Snippet.InBrackets.append _ (hindex ▸ hreturnsIn code hcode) (used₅ ++ used₆)
      rwa [List.append_assoc] at hreturn
  generalize used₃ ++ (used₄ ++ (used₅ ++ used₆)) = heading at hheading hcodes
  have hrest := htakesColon.trans (htakesBody.trans htakesSemicolon)
  obtain ⟨mark, htakesMark, hspelled⟩ : ∃ mark, c.Takes mark d₁ ∧
      MarkSpelled name (heading ++ [leaf (.punct ':' joint) q]) isFragment mark := by
    rcases takes_fragmentMark hmark with ⟨rfl, hsame, hplain⟩ | ⟨rfl, s, htakes⟩
    · have hsame : d₁ = c := hsame
      subst hsame
      refine ⟨[], .refl _, .plain fun hfragment => ?_⟩
      have htrees := htakesName.1
      rw [List.singleton_append] at htrees
      have hword : d₁.atWord "fragment" = true := by
        unfold atWord
        rw [htrees, hfragment]
        rfl
      rw [hword, Bool.true_and, atIdent_eq] at hplain
      have hsecond : d₁.second.trees = d₂.trees := by
        unfold second
        rw [htrees]
        rfl
      rw [hsecond, (hheading.trans htakesColon).1] at hplain
      have hne : heading ++ [leaf (.punct ':' joint) q] ≠ [] := by simp
      generalize heading ++ [leaf (.punct ':' joint) q] = ts at hplain hne
      cases ts with
      | nil => exact absurd rfl hne
      | cons t ts =>
          cases t with
          | leaf token s => cases token <;> exact hplain
          | group => rfl
    · exact ⟨_, htakes, .marked s⟩
  have hall := htakesMark.trans (htakesName.trans (hheading.trans hrest))
  refine ⟨_, hall, ?_, fun code hcode => ?_, mark, heading, body, p, joint, joint', q, r, by simp,
    hspelled, htakesMark.2, ?_, ?_, ?_⟩
  · have hlast : d₉.index = d₈.index + 1 := by
      rw [htakesSemicolon.2]
      simp
    have hindex := hall.2
    show (⟨c.index, d₈.index⟩ : Extent) = _
    unfold Extent.across
    congr 1
    dsimp only at hindex
    omega
  · have hindex : d₂.index = c.index + widths (mark ++ [leaf (.ident name) p]) :=
      (htakesMark.trans htakesName).2
    have h := Snippet.InBrackets.append _ (hindex ▸ hcodes code hcode)
      (leaf (.punct ':' joint) q :: (body ++ [leaf (.punct ';' joint') r]))
    simpa using h
  · have hindex : d₇.index = c.index + widths mark + 1 + widths heading + 1 := by
      rw [htakesColon.2, hheading.2, htakesName.2, htakesMark.2]
      simp
    rw [← hindex]
    exact hbody
  · intro a ha
    show (as.head?.map (·.extent.start)).getD d₆.index = a.extent.start
    rw [show as.head? = some a from ha]
    rfl
  · intro a ha
    show (as.getLast?.map (·.extent.stop)).getD d₆.index = a.extent.stop
    rw [show as.getLast? = some a from ha]
    rfl

theorem takes_rules (c : Cursor) {rules : List RuleDef} {d : Cursor}
    (h : c.rules = .ok (rules, d)) :
    ∃ used, c.Takes used d ∧ d.trees = [] ∧ RulesSpelled c.index used rules := by
  rw [Cursor.rules] at h
  split at h
  · next hempty =>
      obtain ⟨rfl, rfl⟩ := Prod.mk.inj (Except.ok.inj h)
      exact ⟨[], .refl _, List.isEmpty_iff.mp hempty, rfl⟩
  · obtain ⟨⟨rule, d₁, hd₁⟩, hrule, h⟩ := ok_of_bind h
    obtain ⟨⟨rest, e⟩, hrest, h⟩ := ok_of_bind h
    obtain ⟨rfl, rfl⟩ := Prod.mk.inj (Except.ok.inj h)
    obtain ⟨front, htakes, hspelled⟩ := takes_rule hrule
    obtain ⟨back, htakes', hempty, hspelled'⟩ := takes_rules d₁ hrest
    have hindex : d₁.index = c.index + widths front := htakes.2
    exact ⟨_, htakes.trans htakes', hempty, front, back, rfl, hspelled, hindex ▸ hspelled'⟩
termination_by c.size
decreasing_by omega

/-! ## Grammars -/

theorem takes_importNames (c : Cursor) {names : List (String × Text.Position)} {d : c.Shorter}
    (h : c.importNames = .ok (names, d)) : ∃ used, c.Takes used d.1 := by
  rw [importNames] at h
  obtain ⟨⟨⟨name, index⟩, d₁, hd₁⟩, hname, h⟩ := ok_of_bind h
  obtain ⟨-, p, htakes⟩ := takes_ident hname
  dsimp only at h
  split at h
  · next d₂ hd₂ hcomma =>
      obtain ⟨⟨rest, e, he⟩, hrest, h⟩ := ok_of_bind h
      obtain ⟨rfl, rfl⟩ := Prod.mk.inj (Except.ok.inj h)
      obtain ⟨-, joint, q, htakesComma⟩ := takes_punct? hcomma
      obtain ⟨used, htakesRest⟩ := takes_importNames d₂ hrest
      exact ⟨_, htakes.trans (htakesComma.trans htakesRest)⟩
  · obtain ⟨⟨stop, e, he⟩, hstop, h⟩ := ok_of_bind h
    obtain ⟨rfl, rfl⟩ := Prod.mk.inj (Except.ok.inj h)
    obtain ⟨-, joint, q, htakesStop⟩ := takes_punct hstop
    exact ⟨_, htakes.trans htakesStop⟩
termination_by c.size
decreasing_by omega

theorem takes_sections (c : Cursor) {s : Sections} {d : c.Rest} (h : c.sections = .ok (s, d)) :
    ∃ used, c.Takes used d.1 := by
  rw [sections] at h
  split at h
  · obtain ⟨⟨_, d₁, hd₁⟩, hbraced, h⟩ := ok_of_bind h
    obtain ⟨⟨rest, e, he⟩, hrest, h⟩ := ok_of_bind h
    obtain ⟨rfl, rfl⟩ := Prod.mk.inj (Except.ok.inj h)
    obtain ⟨used, htakes⟩ := takes_braced hbraced
    obtain ⟨used', htakes'⟩ := takes_sections d₁ hrest
    exact ⟨_, htakes.trans htakes'⟩
  · split at h
    · obtain ⟨⟨_, d₁, hd₁⟩, hword, h⟩ := ok_of_bind h
      obtain ⟨⟨_, d₂, hd₂⟩, himports, h⟩ := ok_of_bind h
      obtain ⟨⟨rest, e, he⟩, hrest, h⟩ := ok_of_bind h
      obtain ⟨rfl, rfl⟩ := Prod.mk.inj (Except.ok.inj h)
      obtain ⟨p, htakes⟩ := takes_word hword
      obtain ⟨used, htakesImports⟩ := takes_importNames d₁ himports
      obtain ⟨used', htakes'⟩ := takes_sections d₂ hrest
      exact ⟨_, htakes.trans (htakesImports.trans htakes')⟩
    · split at h
      · obtain ⟨⟨_, d₁, hd₁⟩, hbraced, h⟩ := ok_of_bind h
        obtain ⟨⟨rest, e, he⟩, hrest, h⟩ := ok_of_bind h
        obtain ⟨rfl, rfl⟩ := Prod.mk.inj (Except.ok.inj h)
        obtain ⟨used, htakes⟩ := takes_braced hbraced
        obtain ⟨used', htakes'⟩ := takes_sections d₁ hrest
        exact ⟨_, htakes.trans htakes'⟩
      · split at h
        · next d₁ hd₁ hat =>
            obtain ⟨⟨⟨name, index⟩, d₂, hd₂⟩, hname, h⟩ := ok_of_bind h
            obtain ⟨⟨⟨index', text⟩, d₃, hd₃⟩, hgroup, h⟩ := ok_of_bind h
            obtain ⟨⟨rest, e, he⟩, hrest, h⟩ := ok_of_bind h
            obtain ⟨rfl, rfl⟩ := Prod.mk.inj (Except.ok.inj h)
            obtain ⟨-, joint, p, htakes⟩ := takes_punct? hat
            obtain ⟨-, q, htakesName⟩ := takes_ident hname
            obtain ⟨-, opened, closed, body, -, htakesGroup⟩ :=
              takes_opaqueGroup hgroup (by decide)
            obtain ⟨used', htakes'⟩ := takes_sections d₃ hrest
            exact ⟨_, htakes.trans (htakesName.trans (htakesGroup.trans htakes'))⟩
        · obtain ⟨rfl, rfl⟩ := Prod.mk.inj (Except.ok.inj h)
          exact ⟨[], .refl _⟩
termination_by c.size
decreasing_by all_goals omega

theorem takes_grammarKind {c : Cursor} {kind : GrammarKind} {d : c.Rest}
    (h : c.grammarKind = .ok (kind, d)) : ∃ used, c.Takes used d.1 := by
  unfold grammarKind at h
  split at h
  · obtain ⟨⟨_, d₁, hd₁⟩, hword, h⟩ := ok_of_bind h
    obtain ⟨rfl, rfl⟩ := Prod.mk.inj (Except.ok.inj h)
    obtain ⟨p, htakes⟩ := takes_word hword
    exact ⟨_, htakes⟩
  · split at h
    · obtain ⟨⟨_, d₁, hd₁⟩, hword, h⟩ := ok_of_bind h
      obtain ⟨rfl, rfl⟩ := Prod.mk.inj (Except.ok.inj h)
      obtain ⟨p, htakes⟩ := takes_word hword
      exact ⟨_, htakes⟩
    · obtain ⟨rfl, rfl⟩ := Prod.mk.inj (Except.ok.inj h)
      exact ⟨[], .refl _⟩

/-- The rules of a grammar stand at the end of its trees. -/
theorem takes_grammar {c : Cursor} {table : TokenTable} {g : GrammarDef}
    (h : c.grammar table = .ok g) :
    g.tokens = table ∧ ∃ front back, c.trees = front ++ back ∧
      RulesSpelled (c.index + widths front) back g.rules := by
  unfold Cursor.grammar at h
  obtain ⟨⟨kind, d₁, hd₁⟩, hkind, h⟩ := ok_of_bind h
  obtain ⟨⟨_, d₂, hd₂⟩, hword, h⟩ := ok_of_bind h
  obtain ⟨⟨⟨name, index⟩, d₃, hd₃⟩, hname, h⟩ := ok_of_bind h
  obtain ⟨⟨semicolon, d₄, hd₄⟩, hsemicolon, h⟩ := ok_of_bind h
  obtain ⟨⟨s, d₅, hd₅⟩, hsections, h⟩ := ok_of_bind h
  obtain ⟨⟨rules, e⟩, hrules, h⟩ := ok_of_bind h
  obtain ⟨_, -, h⟩ := ok_of_bind h
  obtain rfl := Except.ok.inj h
  obtain ⟨used₁, htakes₁⟩ := takes_grammarKind hkind
  obtain ⟨p, htakes₂⟩ := takes_word hword
  obtain ⟨-, q, htakes₃⟩ := takes_ident hname
  obtain ⟨-, joint, r, htakes₄⟩ := takes_punct hsemicolon
  obtain ⟨used₅, htakes₅⟩ := takes_sections d₄ hsections
  obtain ⟨used, htakes, hempty, hspelled⟩ := takes_rules d₅ hrules
  have hfront := htakes₁.trans (htakes₂.trans (htakes₃.trans (htakes₄.trans htakes₅)))
  refine ⟨rfl, _, used, ?_, hfront.2 ▸ hspelled⟩
  have htrees : d₅.trees = used := by
    rw [htakes.1, hempty, List.append_nil]
  rw [hfront.1, htrees]

end Cursor

/-! ## Sources -/

theorem readTrees_eq_ok {source : String} {trees : List TokenTree} :
    readTrees source = .ok trees ↔ TokenTree.parse source = .ok trees := by
  unfold readTrees
  cases TokenTree.parse source with
  | error p => exact ⟨nofun, nofun⟩
  | ok ts => exact ⟨fun h => congrArg _ (Except.ok.inj h), fun h => congrArg _ (Except.ok.inj h)⟩

theorem Cursor.finish_eq_ok {c : Cursor} :
    c.finish = .ok () ↔ c.stray = none ∧ c.trees = [] := by
  unfold finish
  split
  · next p htray => simp [htray]
  · next hstray htrees => simp [hstray, htrees]
  · next t ts hstray htrees => simp [hstray, htrees]

/-- What a text is if it is read as a rule. -/
theorem RuleDef.parse_eq_ok {name source : String} {table kept : TokenTable} {rule : RuleDef} :
    RuleDef.parse name source table = (.ok rule, kept) ↔
      ∃ trees d hd, TokenTree.parse source = .ok trees ∧
        (Cursor.atStart trees table.size).rule = .ok (rule, ⟨d, hd⟩) ∧ d.stray = none ∧
        d.trees = [] ∧ kept = rule.relocateCopies (table.addSource name trees) := by
  constructor
  · intro h
    unfold RuleDef.parse at h
    split at h
    · cases h
    next trees htrees =>
    dsimp only at h
    split at h
    · cases h
    next rule' d hd hread =>
    split at h
    · cases h
    next hfinish =>
    obtain ⟨hrule, rfl⟩ := Prod.mk.inj h
    obtain rfl := Except.ok.inj hrule
    obtain ⟨hstray, hend⟩ := Cursor.finish_eq_ok.mp hfinish
    exact ⟨trees, d, hd, readTrees_eq_ok.mp htrees, hread, hstray, hend, rfl⟩
  · rintro ⟨trees, d, hd, hparse, hread, hstray, hend, rfl⟩
    unfold RuleDef.parse
    rw [readTrees_eq_ok.mpr hparse]
    dsimp only
    rw [hread]
    dsimp only
    rw [Cursor.finish_eq_ok.mpr ⟨hstray, hend⟩]

end GrammarCompiler
