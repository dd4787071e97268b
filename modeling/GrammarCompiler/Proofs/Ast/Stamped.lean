import GrammarCompiler.Proofs.Ast.Placed
import GrammarCompiler.Proofs.Ast.Replay

/-!
# Extents of a grammar

Every extent of a grammar that can be read is a part of its token table, lies inside the part it
belongs to and behind the part before it (`GrammarDef.Placed`). A grammar holds no documentation
comment outside of embedded code, so that each of its tokens is found again at its own place.
-/

namespace GrammarCompiler

open TokenTree (leaf group tops widths Clean)

/-! ## What readers of a grammar pass -/

/-- A reader that agrees with itself passes clean trees. -/
theorem Agrees.past_of_eq_ok {α : Type} {m n : Nat} {move : Nat → α → α} {c : Cursor}
    {P P' : Cursor → Prop} {x : Except SyntaxError (α × { d // P d })}
    {x' : Except SyntaxError (α × { d // P' d })} (h : Agrees m n move c x x') {a : α}
    {d : { d // P d }} (hx : x = .ok (a, d)) : c.Past d.1 := by
  obtain ⟨-, -, -, -, -, -, hpast⟩ := h a d.1 d.2 hx
  exact hpast

namespace Cursor

theorem Alike.refl (c : Cursor) : c.Alike 0 0 c := ⟨.refl c.trees, rfl, rfl⟩

theorem past_ident {c : Cursor} {a : String × Nat} {d : c.Shorter} (h : c.ident = .ok (a, d)) :
    c.Past d.1 :=
  (Alike.refl c).ident.past_of_eq_ok h

theorem past_word {c : Cursor} {text : String} {u : Unit} {d : c.Shorter}
    (h : c.word text = .ok (u, d)) : c.Past d.1 :=
  ((Alike.refl c).word text).past_of_eq_ok h

theorem past_punct {c : Cursor} {char : Char} {i : Nat} {d : c.Shorter}
    (h : c.punct char = .ok (i, d)) (hchar : char ≠ '\'' ∧ char ≠ '#') : c.Past d.1 :=
  ((Alike.refl c).punct hchar).past_of_eq_ok h

theorem past_punct? {c : Cursor} {char : Char} {i : Nat} {d : c.Shorter}
    (h : c.punct? char = some (i, d)) (hchar : char ≠ '\'' ∧ char ≠ '#') : c.Past d.1 :=
  past_punct (ok_of_toOption h) hchar

theorem past_braced {α : Type} {c : Cursor} {keyword : String}
    {body : Cursor → Except SyntaxError α} {value : α} {d : c.Shorter}
    (h : c.braced keyword body = .ok (value, d)) : c.Past d.1 := by
  unfold braced at h
  obtain ⟨⟨_, d₁, hd₁⟩, hword, h⟩ := ok_of_bind h
  dsimp only at h
  split at h
  · next opened closed trees rest htrees =>
      obtain ⟨value', -, h⟩ := ok_of_bind h
      obtain ⟨rfl, rfl⟩ := Prod.mk.inj (Except.ok.inj h)
      exact (past_word hword).trans
        (past_behind (fun hrest => htrees ▸ hrest.code (by decide) _ _ _) _)
  · cases h

theorem past_importNames (c : Cursor) {names : List (String × Text.Position)} {d : c.Shorter}
    (h : c.importNames = .ok (names, d)) : c.Past d.1 := by
  rw [importNames] at h
  obtain ⟨⟨⟨name, index⟩, d₁, hd₁⟩, hname, h⟩ := ok_of_bind h
  have hpast := past_ident hname
  dsimp only at h
  split at h
  · next d₂ hd₂ hcomma =>
      obtain ⟨⟨rest, e, he⟩, hrest, h⟩ := ok_of_bind h
      obtain ⟨rfl, rfl⟩ := Prod.mk.inj (Except.ok.inj h)
      exact hpast.trans ((past_punct? hcomma (by decide)).trans (past_importNames d₂ hrest))
  · obtain ⟨⟨stop, e, he⟩, hstop, h⟩ := ok_of_bind h
    obtain ⟨rfl, rfl⟩ := Prod.mk.inj (Except.ok.inj h)
    exact hpast.trans (past_punct hstop (by decide))
termination_by c.size
decreasing_by omega

theorem past_sections (c : Cursor) {s : Sections} {d : c.Rest} (h : c.sections = .ok (s, d)) :
    c.Past d.1 := by
  rw [sections] at h
  split at h
  · obtain ⟨⟨_, d₁, hd₁⟩, hbraced, h⟩ := ok_of_bind h
    obtain ⟨⟨rest, e, he⟩, hrest, h⟩ := ok_of_bind h
    obtain ⟨rfl, rfl⟩ := Prod.mk.inj (Except.ok.inj h)
    exact (past_braced hbraced).trans (past_sections d₁ hrest)
  split at h
  · obtain ⟨⟨_, d₁, hd₁⟩, hword, h⟩ := ok_of_bind h
    obtain ⟨⟨_, d₂, hd₂⟩, himports, h⟩ := ok_of_bind h
    obtain ⟨⟨rest, e, he⟩, hrest, h⟩ := ok_of_bind h
    obtain ⟨rfl, rfl⟩ := Prod.mk.inj (Except.ok.inj h)
    exact (past_word hword).trans ((past_importNames d₁ himports).trans (past_sections d₂ hrest))
  split at h
  · obtain ⟨⟨_, d₁, hd₁⟩, hbraced, h⟩ := ok_of_bind h
    obtain ⟨⟨rest, e, he⟩, hrest, h⟩ := ok_of_bind h
    obtain ⟨rfl, rfl⟩ := Prod.mk.inj (Except.ok.inj h)
    exact (past_braced hbraced).trans (past_sections d₁ hrest)
  split at h
  · next d₁ hd₁ hat =>
      obtain ⟨⟨⟨name, index⟩, d₂, hd₂⟩, hname, h⟩ := ok_of_bind h
      obtain ⟨⟨⟨index', text⟩, d₃, hd₃⟩, hgroup, h⟩ := ok_of_bind h
      obtain ⟨⟨rest, e, he⟩, hrest, h⟩ := ok_of_bind h
      obtain ⟨rfl, rfl⟩ := Prod.mk.inj (Except.ok.inj h)
      have hpast := ((Alike.refl d₂).opaqueGroup (by decide) _).past_of_eq_ok hgroup
      exact (past_punct? hat (by decide)).trans
        ((past_ident hname).trans (hpast.trans (past_sections d₃ hrest)))
  · obtain ⟨rfl, rfl⟩ := Prod.mk.inj (Except.ok.inj h)
    exact .refl c
termination_by c.size
decreasing_by all_goals omega

theorem past_grammarKind {c : Cursor} {kind : GrammarKind} {d : c.Rest}
    (h : c.grammarKind = .ok (kind, d)) : c.Past d.1 := by
  unfold grammarKind at h
  split at h
  · obtain ⟨⟨_, d₁, hd₁⟩, hword, h⟩ := ok_of_bind h
    obtain ⟨rfl, rfl⟩ := Prod.mk.inj (Except.ok.inj h)
    exact past_word hword
  split at h
  · obtain ⟨⟨_, d₁, hd₁⟩, hword, h⟩ := ok_of_bind h
    obtain ⟨rfl, rfl⟩ := Prod.mk.inj (Except.ok.inj h)
    exact past_word hword
  · obtain ⟨rfl, rfl⟩ := Prod.mk.inj (Except.ok.inj h)
    exact .refl c

theorem past_rules (c : Cursor) {rules : List RuleDef} {d : Cursor}
    (h : c.rules = .ok (rules, d)) : c.Past d := by
  rw [Cursor.rules] at h
  split at h
  · obtain ⟨rfl, rfl⟩ := Prod.mk.inj (Except.ok.inj h)
    exact .refl c
  · obtain ⟨⟨rule, d₁, hd₁⟩, hrule, h⟩ := ok_of_bind h
    obtain ⟨⟨rest, e⟩, hrest, h⟩ := ok_of_bind h
    obtain ⟨rfl, rfl⟩ := Prod.mk.inj (Except.ok.inj h)
    exact ((Alike.refl c).rule.past_of_eq_ok hrule).trans (past_rules d₁ hrest)
termination_by c.size
decreasing_by omega

/-- A grammar is read from clean trees. -/
theorem clean_of_grammar {c : Cursor} {table : TokenTable} {g : GrammarDef}
    (h : c.grammar table = .ok g) : Clean c.trees := by
  unfold Cursor.grammar at h
  obtain ⟨⟨kind, d₁, hd₁⟩, hkind, h⟩ := ok_of_bind h
  obtain ⟨⟨_, d₂, hd₂⟩, hword, h⟩ := ok_of_bind h
  obtain ⟨⟨⟨name, index⟩, d₃, hd₃⟩, hname, h⟩ := ok_of_bind h
  obtain ⟨⟨semicolon, d₄, hd₄⟩, hsemicolon, h⟩ := ok_of_bind h
  obtain ⟨⟨s, d₅, hd₅⟩, hsections, h⟩ := ok_of_bind h
  obtain ⟨⟨rules, e⟩, hrules, h⟩ := ok_of_bind h
  obtain ⟨_, hfinish, -⟩ := ok_of_bind h
  obtain ⟨hstray, hend⟩ := finish_eq_ok.mp hfinish
  have hpast := (past_grammarKind hkind).trans ((past_word hword).trans ((past_ident hname).trans
    ((past_punct hsemicolon (by decide)).trans
      ((past_sections d₄ hsections).trans (past_rules d₅ hrules)))))
  exact (hpast hstray).2 (hend ▸ .nil)

end Cursor

/-! ## All extents -/

def Options.extents (options : Options) : List Extent :=
  options.extent.toList

def Snippet.extents (code : Snippet) : List Extent :=
  code.extent :: code.options.extents

def Quotation.extents (literal : Quotation) : List Extent :=
  literal.extent :: literal.options.extents

mutual
/-- The extents of an element and all of its parts. -/
def Element.extents : Element → List Extent
  | .block alts options extent => extent :: (options.extents ++ Alt.allExtents alts)
  | .ruleRef ref =>
    ref.extent :: (ref.args.toList.flatMap Snippet.extents ++ ref.options.extents)
  | .tokenRef _ options extent => extent :: options.extents
  | .quotation literal => literal.extents
  | .range first last extent => extent :: (first.extents ++ last.extents)
  | .wildcard options extent => extent :: options.extents
  | .not operand extent => extent :: operand.extents
  | .set elements extent => extent :: Element.allExtents elements
  | .suffixed _ _ element extent => extent :: element.extents
  | .labeled _ _ _ element extent => extent :: element.extents
  | .action code => code.extents
  | .predicate code => code.extents
  | .command _ _ extent => [extent]
  | .epsilon extent => [extent]

def Element.allExtents : List Element → List Extent
  | [] => []
  | e :: es => e.extents ++ Element.allExtents es

def Alt.extents : Alt → List Extent
  | ⟨elements, options, _, extent, _⟩ =>
    extent :: (options.extents ++ Element.allExtents elements)

def Alt.allExtents : List Alt → List Extent
  | [] => []
  | a :: as => a.extents ++ Alt.allExtents as
end

def RuleDef.extents (rule : RuleDef) : List Extent :=
  rule.extent :: ((rule.args.toList ++ rule.returns.toList).flatMap Snippet.extents ++
    rule.block.extent :: Alt.allExtents rule.block.alts)

/-- The extents of all parts of a grammar. -/
def GrammarDef.extents (g : GrammarDef) : List Extent :=
  g.rules.flatMap RuleDef.extents

theorem Extent.Within.trans {outer extent inner : Extent} (h : outer.Within extent)
    (h' : extent.Within inner) : outer.Within inner := by
  unfold Extent.Within at *
  omega

/-- An extent lies where it lies with all that lies within it. -/
theorem Extent.Within.cons {outer extent : Extent} {extents : List Extent} (h : outer.Within extent)
    (hinner : ∀ x ∈ extents, extent.Within x) : ∀ x ∈ extent :: extents, outer.Within x :=
  List.forall_mem_cons.mpr ⟨h, fun x hx => h.trans (hinner x hx)⟩

section Parts

variable {textAt : Nat → Option String} {outer : Extent}

theorem Options.Within.extents {options : Options} (h : options.Within outer) :
    ∀ extent ∈ options.extents, outer.Within extent :=
  fun extent hextent => h extent (Option.mem_toList.mp hextent)

theorem Snippet.Within.extents {code : Snippet} (h : code.Within outer) :
    ∀ extent ∈ code.extents, outer.Within extent :=
  h.1.cons h.2.extents

theorem Quotation.Within.extents {literal : Quotation} (h : literal.Within textAt outer) :
    ∀ extent ∈ literal.extents, outer.Within extent :=
  h.1.cons h.2.2.extents

mutual
/-- All parts of an element lie where it lies. -/
theorem Element.Placed.extents : ∀ (e : Element) {outer : Extent}, e.Placed textAt →
    outer.Within e.extent → ∀ extent ∈ e.extents, outer.Within extent
  | .block alts options extent, outer, h, hwithin => by
      rw [Element.Placed] at h
      rw [Element.extents]
      exact hwithin.cons
        (List.forall_mem_append.mpr ⟨h.1.extents, Alt.AllPlaced.extents alts h.2⟩)
  | .ruleRef ref, outer, h, hwithin => by
      rw [Element.Placed] at h
      rw [Element.extents]
      refine hwithin.cons (List.forall_mem_append.mpr ⟨fun x hx => ?_, h.2.2.extents⟩)
      obtain ⟨code, hcode, hx⟩ := List.mem_flatMap.mp hx
      exact (h.2.1 code (Option.mem_toList.mp hcode)).extents x hx
  | .tokenRef name options extent, outer, h, hwithin => by
      rw [Element.Placed] at h
      rw [Element.extents]
      exact hwithin.cons h.2.extents
  | .quotation literal, outer, h, hwithin => by
      rw [Element.Placed] at h
      rw [Element.extents]
      exact fun x hx => hwithin.trans (h.extents x hx)
  | .range first last extent, outer, h, hwithin => by
      rw [Element.Placed] at h
      rw [Element.extents]
      exact hwithin.cons (List.forall_mem_append.mpr
        ⟨h.1.extents, fun x hx => (h.2.extents x hx).of_behind h.1.1⟩)
  | .wildcard options extent, outer, h, hwithin => by
      rw [Element.Placed] at h
      rw [Element.extents]
      exact hwithin.cons h.extents
  | .not operand extent, outer, h, hwithin => by
      rw [Element.Placed] at h
      rw [Element.extents]
      exact hwithin.cons (Element.Placed.extents operand h.2 h.1)
  | .set elements extent, outer, h, hwithin => by
      rw [Element.Placed] at h
      rw [Element.extents]
      exact hwithin.cons (Element.AllPlaced.extents elements h)
  | .suffixed suffix greedy element extent, outer, h, hwithin => by
      rw [Element.Placed] at h
      rw [Element.extents]
      exact hwithin.cons (Element.Placed.extents element h.2 h.1)
  | .labeled isList label token element extent, outer, h, hwithin => by
      rw [Element.Placed] at h
      rw [Element.extents]
      exact hwithin.cons (Element.Placed.extents element h.2.2.2 h.2.2.1)
  | .action code, outer, h, hwithin => by
      rw [Element.Placed] at h
      rw [Element.extents]
      exact Snippet.Within.extents ⟨hwithin, h⟩
  | .predicate code, outer, h, hwithin => by
      rw [Element.Placed] at h
      rw [Element.extents]
      exact Snippet.Within.extents ⟨hwithin, h⟩
  | .command name arg extent, outer, h, hwithin => by
      rw [Element.extents]
      exact hwithin.cons nofun
  | .epsilon extent, outer, h, hwithin => by
      rw [Element.extents]
      exact hwithin.cons nofun

theorem Element.AllPlaced.extents : ∀ (es : List Element) {outer : Extent},
    Element.AllPlaced textAt outer es → ∀ extent ∈ Element.allExtents es, outer.Within extent
  | [], outer, h => by
      rw [Element.allExtents]
      nofun
  | e :: es, outer, h => by
      rw [Element.AllPlaced] at h
      rw [Element.allExtents]
      intro x hx
      rcases List.mem_append.mp hx with hx | hx
      · exact Element.Placed.extents e h.2.1 h.1 x hx
      · exact (Element.AllPlaced.extents es h.2.2 x hx).of_behind h.1

theorem Alt.Placed.extents : ∀ (a : Alt) {outer : Extent}, a.Placed textAt →
    outer.Within a.extent → ∀ extent ∈ a.extents, outer.Within extent
  | ⟨elements, options, label, extent, info⟩, outer, h, hwithin => by
      rw [Alt.Placed] at h
      rw [Alt.extents]
      exact hwithin.cons
        (List.forall_mem_append.mpr ⟨h.1.extents, Element.AllPlaced.extents elements h.2.1⟩)

theorem Alt.AllPlaced.extents : ∀ (as : List Alt) {outer : Extent},
    Alt.AllPlaced textAt outer as → ∀ extent ∈ Alt.allExtents as, outer.Within extent
  | [], outer, h => by
      rw [Alt.allExtents]
      nofun
  | a :: as, outer, h => by
      rw [Alt.AllPlaced] at h
      rw [Alt.allExtents]
      intro x hx
      rcases List.mem_append.mp hx with hx | hx
      · exact Alt.Placed.extents a h.2.1 h.1 x hx
      · exact (Alt.AllPlaced.extents as h.2.2 x hx).of_behind h.1
end

theorem RuleDef.Placed.extents {rule : RuleDef} (h : rule.Placed textAt)
    (hwithin : outer.Within rule.extent) : ∀ extent ∈ rule.extents, outer.Within extent := by
  refine hwithin.cons (List.forall_mem_append.mpr
    ⟨fun x hx => ?_, h.block.cons (Alt.AllPlaced.extents _ h.alts)⟩)
  obtain ⟨code, hcode, hx⟩ := List.mem_flatMap.mp hx
  rcases List.mem_append.mp hcode with hcode | hcode
  · exact (h.args code (Option.mem_toList.mp hcode)).extents x hx
  · exact (h.returns code (Option.mem_toList.mp hcode)).extents x hx

theorem RuleDef.AllPlaced.extents {rules : List RuleDef} {outer : Extent}
    (h : RuleDef.AllPlaced textAt outer rules) :
    ∀ extent ∈ rules.flatMap RuleDef.extents, outer.Within extent := by
  induction rules generalizing outer with
  | nil => nofun
  | cons rule rules ih =>
      intro x hx
      rw [List.flatMap_cons] at hx
      rcases List.mem_append.mp hx with hx | hx
      · exact h.2.1.extents h.1 x hx
      · exact (ih h.2.2 x hx).of_behind h.1

end Parts

/-! ## Reading a grammar -/

def TokenTable.textAt (table : TokenTable) (i : Nat) : Option String :=
  (table.get? i).map Token.text

theorem TokenTable.textAt_written (table : TokenTable) :
    TokenTree.textAt table.written = table.textAt := by
  funext i
  rw [TokenTree.textAt, written, List.getElem?_map, Option.map_map, Array.getElem?_toList]
  rfl

/-- Whether all extents of a grammar are parts of its token table that are exact and well nested:
its rules stand one behind the other, with all their parts, and every token is found again where it
stands. -/
structure GrammarDef.Placed (g : GrammarDef) : Prop where
  bounds : ∀ extent ∈ g.extents, extent.start ≤ extent.stop ∧ extent.stop < g.tokens.size
  rules : RuleDef.AllPlaced g.tokens.textAt ⟨0, g.tokens.size - 1⟩ g.rules
  tokens : ∀ i < g.tokens.size, ∃ token, g.tokens.get? i = some token ∧
    g.tokens.locate token.position = some i

namespace GrammarDef

/-- The extents of a grammar that can be read are exact and well nested. -/
theorem parse_placed {file source : String} {g : GrammarDef}
    (h : GrammarDef.parse file source = .ok g) : g.Placed := by
  unfold GrammarDef.parse at h
  obtain ⟨trees, htrees, hread⟩ := ok_of_bind h
  have hparse := readTrees_eq_ok.mp htrees
  have hclean : Clean trees := Cursor.clean_of_grammar hread
  obtain ⟨htokens, front, back, hsplit, hspelled⟩ := Cursor.takes_grammar hread
  obtain rfl : trees = front ++ back := hsplit
  have hsize : g.tokens.size = widths (front ++ back) := by
    rw [htokens, TokenTable.size_addSource]
    exact Nat.zero_add _
  have hwritten : g.tokens.written = TokenTree.allWritten (front ++ back) := by
    rw [htokens, TokenTable.written_addSource]
    rfl
  have hplaces : g.tokens.places = (tops (front ++ back)).map (·.2) := by
    rw [htokens, TokenTable.places_addSource]
    rfl
  have hstand : TokenTree.StandAt g.tokens.written (0 + widths front) back :=
    TokenTree.StandAt.back ⟨[], [], by simpa using hwritten, rfl⟩
  have hplaced : RuleDef.AllPlaced g.tokens.textAt ⟨0, g.tokens.size - 1⟩ g.rules := by
    rw [← TokenTable.textAt_written]
    refine RulesSpelled.placed hspelled hstand (Nat.zero_le _) ?_
    rw [hsize, TokenTree.widths_append]
    show 0 + widths front + widths back ≤ widths front + widths back - 1 + 1
    omega
  refine ⟨fun x hx => ?_, hplaced, fun i hi => ?_⟩
  · have hwithin := hplaced.extents x hx
    have hne : back ≠ [] := by
      rintro rfl
      obtain ⟨rule, hrule, -⟩ := List.mem_flatMap.mp hx
      exact hspelled.ne_nil (List.ne_nil_of_mem hrule) rfl
    have hpos := widths_pos hne
    rw [TokenTree.widths_append] at hsize
    simp only [Extent.Within] at hwithin
    omega
  · obtain ⟨token, htoken⟩ : ∃ token, g.tokens.get? i = some token :=
      ⟨_, Array.getElem?_eq_getElem hi⟩
    refine ⟨token, htoken, TokenTable.locate_position ?_ htoken⟩
    rw [hplaces]
    exact hclean.labelled.increase hparse

/-- Two rules with arguments, options, labels, an empty alternative, a set and lexer commands. -/
theorem parse_placed_labelled :
    ∃ g, GrammarDef.parse "T.g" "grammar T; options \x7b k = 1; \x7d import U;
a[int n] returns [int m] : <assoc=right> l+=b[n]<p=3> (C | 'd'..'e' | )*? \x7bn\x7d? #one | ;
B : ~('x' | 'y') 'z' -> skip, mode(M) ;" = .ok g ∧ g.rules.length = 2 ∧ g.extents.length = 33 ∧
      g.Placed := by
  have hgood : ((GrammarDef.parse "T.g" "grammar T; options \x7b k = 1; \x7d import U;
a[int n] returns [int m] : <assoc=right> l+=b[n]<p=3> (C | 'd'..'e' | )*? \x7bn\x7d? #one | ;
B : ~('x' | 'y') 'z' -> skip, mode(M) ;").toOption.any
        fun g => g.rules.length = 2 && g.extents.length = 33) = true := by
    decide +kernel
  obtain ⟨g, hg, hboth⟩ := (Option.any_eq_true _ _).mp hgood
  have hread := ok_of_toOption hg
  obtain ⟨hrules, hextents⟩ := (Bool.and_eq_true _ _).mp hboth
  exact ⟨g, hread, of_decide_eq_true hrules, of_decide_eq_true hextents, parse_placed hread⟩

end GrammarDef

end GrammarCompiler
