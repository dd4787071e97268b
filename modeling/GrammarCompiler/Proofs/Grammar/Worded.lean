import GrammarCompiler.Proofs.Ast.Views
import GrammarCompiler.Proofs.Grammar.Replaced

/-!
# How tokens are written

A token is written as a name or as a literal. Names are words of a text and literals are such that
stand for a text, in quotes or raw. Both stay as they are written while a grammar is built: rules that
are imported are moved, and a rule that gives way to another is read again from a text
(`Grammar.Built.worded`).
-/

namespace GrammarCompiler

open TokenTree (leaf group flats)

/-- What is written for an element that stands for a token. -/
inductive Wording where
  | name (name : String)
  | literal (value text : String)

/-- Names are words, and literals stand for their values. -/
def Wording.Sound : Wording → Prop
  | .name text => Text.isName text = true
  | .literal value text => Literal.value? text = some value

/-- What is written for an element, if it stands for a token. -/
def Element.wording? : Element → Option Wording
  | .tokenRef name _ _ => some (.name name)
  | .quotation literal => some (.literal literal.value literal.text)
  | _ => none

def RuleDef.wordings (rule : RuleDef) : List Wording :=
  rule.nodes.filterMap Element.wording?

/-! ## Words of trees -/

/-- The words among trees are names. -/
def TokenTree.Named (ts : List TokenTree) : Prop :=
  ∀ text, Lexeme.leaf (.ident text) ∈ flats ts → Text.isName text = true

namespace TokenTree.Named

variable {t : TokenTree} {ts front back : List TokenTree}

theorem left (h : Named (front ++ back)) : Named front :=
  fun text htext => h text (by simp [htext])

theorem right (h : Named (front ++ back)) : Named back :=
  fun text htext => h text (by simp [htext])

theorem tail (h : Named (t :: ts)) : Named ts :=
  fun text htext => h text (by simp [htext])

theorem body {delimiter : Delimiter} {opened closed : Text.Position}
    (h : Named (group delimiter opened closed back :: ts)) : Named back :=
  fun text htext => h text (by simp [htext])

theorem head {text : String} {p : Text.Position} (h : Named (leaf (.ident text) p :: ts)) :
    Text.isName text = true :=
  h text (by simp)

end TokenTree.Named

theorem TokenTree.named_of_parse {source : String} {trees : List TokenTree}
    (h : TokenTree.parse source = .ok trees) : TokenTree.Named trees :=
  fun _ htext => TokenTree.isName_of_parse h htext

/-! ## Rules that are read -/

theorem sound_append {es es' : List Element}
    (h : ∀ w ∈ es.filterMap Element.wording?, w.Sound)
    (h' : ∀ w ∈ es'.filterMap Element.wording?, w.Sound) :
    ∀ w ∈ (es ++ es').filterMap Element.wording?, w.Sound := by
  rw [List.filterMap_append]
  exact List.forall_mem_append.mpr ⟨h, h'⟩

mutual
theorem Element.Spelled.sound : ∀ (e : Element) {i : Nat} {ts : List TokenTree},
    e.Spelled i ts → TokenTree.Named ts → ∀ w ∈ e.nodes.filterMap Element.wording?, w.Sound
  | .block alts _ _, i, ts, h, hnamed => by
      rw [Element.Spelled] at h
      obtain ⟨-, -, opened, closed, body, rfl, halts⟩ := h
      exact Alt.AllSpelled.sound alts halts hnamed.body
  | .suffixed _ _ inner _, i, ts, h, hnamed => by
      rw [Element.Spelled] at h
      obtain ⟨-, -, front, back, rfl, hinner, -⟩ := h
      exact Element.Spelled.sound inner hinner hnamed.left
  | .labeled _ _ _ inner _, i, ts, h, hnamed => by
      rw [Element.Spelled] at h
      obtain ⟨-, -, -, p, sign, rest, rfl, -, hinner⟩ := h
      exact Element.Spelled.sound inner hinner hnamed.tail.right
  | .not operand _, i, ts, h, hnamed => by
      rw [Element.Spelled] at h
      obtain ⟨-, -, joint, p, rest, rfl, hoperand⟩ := h
      exact Element.Spelled.sound operand hoperand hnamed.tail
  | .set elements _, i, ts, h, hnamed => by
      rw [Element.Spelled] at h
      obtain ⟨-, opened, closed, body, rfl, hset⟩ := h
      exact Element.SetSpelled.sound elements hset hnamed.body
  | .tokenRef name _ _, i, ts, h, hnamed => by
      rw [Element.Spelled] at h
      obtain ⟨-, -, p, rest, rfl, -⟩ := h
      exact List.forall_mem_singleton.mpr hnamed.head
  | .quotation literal, i, ts, h, hnamed => by
      rw [Element.Spelled] at h
      obtain ⟨-, t, rest, -, ⟨hvalue, -⟩, -⟩ := h
      exact List.forall_mem_singleton.mpr hvalue
  | .ruleRef _, _, _, _, _ | .range _ _ _, _, _, _, _ | .wildcard _ _, _, _, _, _
  | .action _, _, _, _, _ | .predicate _, _, _, _, _ | .command _ _ _, _, _, _, _
  | .epsilon _, _, _, _, _ => nofun

theorem Element.ListSpelled.sound : ∀ (es : List Element) {i : Nat} {ts : List TokenTree},
    Element.ListSpelled i ts es → TokenTree.Named ts →
      ∀ w ∈ (Element.listNodes es).filterMap Element.wording?, w.Sound
  | [], _, _, _, _ => nofun
  | e :: es, i, ts, h, hnamed => by
      rw [Element.ListSpelled] at h
      obtain ⟨front, back, rfl, he, -, hes⟩ := h
      exact sound_append (Element.Spelled.sound e he hnamed.left)
        (Element.ListSpelled.sound es hes hnamed.right)

theorem Element.SetSpelled.sound : ∀ (es : List Element) {i : Nat} {ts : List TokenTree},
    Element.SetSpelled i ts es → TokenTree.Named ts →
      ∀ w ∈ (Element.listNodes es).filterMap Element.wording?, w.Sound
  | [], _, _, _, _ => nofun
  | e :: es, i, ts, h, hnamed => by
      rw [Element.SetSpelled] at h
      obtain ⟨-, front, back, rfl, he, hrest⟩ := h
      refine sound_append (Element.Spelled.sound e he hnamed.left) ?_
      rcases hrest with ⟨rfl, -⟩ | ⟨joint, p, rest, rfl, hes⟩
      · exact nofun
      · exact Element.SetSpelled.sound es hes hnamed.right.tail

theorem Alt.AllSpelled.sound : ∀ (as : List Alt) {i : Nat} {ts : List TokenTree},
    Alt.AllSpelled i ts as → TokenTree.Named ts →
      ∀ w ∈ (Alt.listNodes as).filterMap Element.wording?, w.Sound
  | [], _, _, _, _ => nofun
  | ⟨elements, options, label, extent, info⟩ :: as, i, ts, h, hnamed => by
      rw [Alt.AllSpelled] at h
      obtain ⟨front, back, rfl, ha, hrest⟩ := h
      rw [Alt.Spelled] at ha
      obtain ⟨-, options', body, label', rfl, -, -, -, hbody⟩ := ha
      refine sound_append ?_ ?_
      · rcases hbody with ⟨-, rfl⟩ | ⟨-, -, hbody⟩
        · exact nofun
        · exact Element.ListSpelled.sound elements hbody hnamed.left.left.right
      · rcases hrest with ⟨rfl, -⟩ | ⟨joint, p, rest, rfl, -, has⟩
        · exact nofun
        · exact Alt.AllSpelled.sound as has hnamed.right.tail
end

theorem RuleDef.Spelled.sound {rule : RuleDef} {i : Nat} {ts : List TokenTree}
    (h : rule.Spelled i ts) (hnamed : TokenTree.Named ts) : ∀ w ∈ rule.wordings, w.Sound := by
  obtain ⟨-, -, mark, heading, body, p, joint, joint', q, r, rfl, -, -, halts, -⟩ := h
  exact Alt.AllSpelled.sound rule.alts halts hnamed.right.tail.right.tail.left

theorem RulesSpelled.sound {rules : List RuleDef} {i : Nat} {ts : List TokenTree}
    (h : RulesSpelled i ts rules) (hnamed : TokenTree.Named ts) :
    ∀ rule ∈ rules, ∀ w ∈ rule.wordings, w.Sound := by
  induction rules generalizing i ts with
  | nil => exact nofun
  | cons rule rules ih =>
      obtain ⟨front, back, rfl, hrule, hrules⟩ := h
      exact List.forall_mem_cons.mpr ⟨hrule.sound hnamed.left, ih hrules hnamed.right⟩

/-! ## The tokens section -/

namespace Cursor

theorem Takes.named {c d : Cursor} {used : List TokenTree} (h : c.Takes used d)
    (hnamed : TokenTree.Named c.trees) : TokenTree.Named d.trees := by
  rw [h.1] at hnamed
  exact hnamed.right

theorem isName_of_ident {c : Cursor} {name : String} {index : Nat} {d : c.Shorter}
    (h : c.ident = .ok ((name, index), d)) (hnamed : TokenTree.Named c.trees) :
    Text.isName name = true ∧ TokenTree.Named d.1.trees := by
  obtain ⟨-, p, htakes⟩ := takes_ident h
  refine ⟨?_, htakes.named hnamed⟩
  rw [htakes.1] at hnamed
  exact hnamed.head

theorem isName_of_tokenNames (c : Cursor) {names : List String} (h : c.tokenNames = .ok names)
    (hnamed : TokenTree.Named c.trees) : ∀ name ∈ names, Text.isName name = true := by
  rw [tokenNames] at h
  split at h
  · obtain rfl := Except.ok.inj h
    exact nofun
  · obtain ⟨⟨⟨name, index⟩, d, hd⟩, hident, h⟩ := ok_of_bind h
    obtain ⟨hname, hbehind⟩ := isName_of_ident hident hnamed
    dsimp only at h
    split at h
    · next e he hcomma =>
      obtain ⟨rest, hrest, h⟩ := ok_of_bind h
      obtain rfl := Except.ok.inj h
      obtain ⟨-, joint, q, htakes⟩ := takes_punct? hcomma
      exact List.forall_mem_cons.mpr
        ⟨hname, isName_of_tokenNames e hrest (htakes.named hbehind)⟩
    · obtain ⟨rest, hrest, h⟩ := ok_of_bind h
      obtain rfl := Except.ok.inj h
      exact List.forall_mem_cons.mpr ⟨hname, isName_of_tokenNames d hrest hbehind⟩
termination_by c.size
decreasing_by all_goals omega

theorem isName_of_braced {c : Cursor} {keyword : String} {names : List String} {d : c.Shorter}
    (h : c.braced keyword tokenNames = .ok (names, d)) (hnamed : TokenTree.Named c.trees) :
    ∀ name ∈ names, Text.isName name = true := by
  unfold braced at h
  obtain ⟨⟨_, d₁, hd₁⟩, hword, h⟩ := ok_of_bind h
  obtain ⟨p, htakes⟩ := takes_word hword
  dsimp only at h
  split at h
  · next opened closed trees rest htrees =>
      obtain ⟨names', hnames, h⟩ := ok_of_bind h
      obtain ⟨rfl, rfl⟩ := Prod.mk.inj (Except.ok.inj h)
      have hgroup := htakes.named hnamed
      rw [htrees] at hgroup
      exact isName_of_tokenNames _ hnames hgroup.body
  · cases h

theorem isName_of_sections (c : Cursor) {s : Sections} {d : c.Rest} (h : c.sections = .ok (s, d))
    (hnamed : TokenTree.Named c.trees) : ∀ name ∈ s.tokenDefs, Text.isName name = true := by
  rw [sections] at h
  split at h
  · obtain ⟨⟨_, d₁, hd₁⟩, hbraced, h⟩ := ok_of_bind h
    obtain ⟨⟨rest, e, he⟩, hrest, h⟩ := ok_of_bind h
    obtain ⟨rfl, rfl⟩ := Prod.mk.inj (Except.ok.inj h)
    obtain ⟨used, htakes⟩ := takes_braced hbraced
    have hrest := isName_of_sections d₁ hrest (htakes.named hnamed)
    exact hrest
  · split at h
    · obtain ⟨⟨_, d₁, hd₁⟩, hword, h⟩ := ok_of_bind h
      obtain ⟨⟨_, d₂, hd₂⟩, himports, h⟩ := ok_of_bind h
      obtain ⟨⟨rest, e, he⟩, hrest, h⟩ := ok_of_bind h
      obtain ⟨rfl, rfl⟩ := Prod.mk.inj (Except.ok.inj h)
      obtain ⟨p, htakes⟩ := takes_word hword
      obtain ⟨used, htakesImports⟩ := takes_importNames d₁ himports
      have hrest := isName_of_sections d₂ hrest (htakesImports.named (htakes.named hnamed))
      exact hrest
    · split at h
      · obtain ⟨⟨names, d₁, hd₁⟩, hbraced, h⟩ := ok_of_bind h
        obtain ⟨⟨rest, e, he⟩, hrest, h⟩ := ok_of_bind h
        obtain ⟨rfl, rfl⟩ := Prod.mk.inj (Except.ok.inj h)
        obtain ⟨used, htakes⟩ := takes_braced hbraced
        exact List.forall_mem_append.mpr ⟨isName_of_braced hbraced hnamed,
          isName_of_sections d₁ hrest (htakes.named hnamed)⟩
      · split at h
        · next d₁ hd₁ hat =>
            obtain ⟨⟨⟨name, index⟩, d₂, hd₂⟩, hname, h⟩ := ok_of_bind h
            obtain ⟨⟨⟨index', text⟩, d₃, hd₃⟩, hgroup, h⟩ := ok_of_bind h
            obtain ⟨⟨rest, e, he⟩, hrest, h⟩ := ok_of_bind h
            obtain ⟨rfl, rfl⟩ := Prod.mk.inj (Except.ok.inj h)
            obtain ⟨-, joint, p, htakes⟩ := takes_punct? hat
            obtain ⟨-, q, htakesName⟩ := takes_ident hname
            obtain ⟨-, opened, closed, body, -, htakesGroup⟩ :=
              takes_opaqueGroup hgroup (by decide)
            have hrest := isName_of_sections d₃ hrest
              (htakesGroup.named (htakesName.named (htakes.named hnamed)))
            exact hrest
        · obtain ⟨rfl, rfl⟩ := Prod.mk.inj (Except.ok.inj h)
          exact nofun
termination_by c.size
decreasing_by all_goals omega

theorem isName_of_grammar {c : Cursor} {table : TokenTable} {g : GrammarDef}
    (h : c.grammar table = .ok g) (hnamed : TokenTree.Named c.trees) :
    ∀ name ∈ g.tokenDefs, Text.isName name = true := by
  unfold Cursor.grammar at h
  obtain ⟨⟨kind, d₁, hd₁⟩, hkind, h⟩ := ok_of_bind h
  obtain ⟨⟨_, d₂, hd₂⟩, hword, h⟩ := ok_of_bind h
  obtain ⟨⟨⟨name, index⟩, d₃, hd₃⟩, hname, h⟩ := ok_of_bind h
  obtain ⟨⟨semicolon, d₄, hd₄⟩, hsemicolon, h⟩ := ok_of_bind h
  obtain ⟨⟨s, d₅, hd₅⟩, hsections, h⟩ := ok_of_bind h
  obtain ⟨⟨rules, e⟩, hrules, h⟩ := ok_of_bind h
  obtain ⟨_, -, h⟩ := ok_of_bind h
  obtain rfl := Except.ok.inj h
  obtain ⟨used₁, htakes₁⟩ := takes_grammarKind hkind
  obtain ⟨p, htakes₂⟩ := takes_word hword
  obtain ⟨-, q, htakes₃⟩ := takes_ident hname
  obtain ⟨-, joint, r, htakes₄⟩ := takes_punct hsemicolon
  exact isName_of_sections d₄ hsections
    (htakes₄.named (htakes₃.named (htakes₂.named (htakes₁.named hnamed))))

end Cursor

/-! ## Texts -/

/-- The tokens of a text: those in its rules, and those of its tokens section. -/
theorem GrammarDef.worded_of_parse {file source : String} {g : GrammarDef}
    (h : GrammarDef.parse file source = .ok g) :
    (∀ rule ∈ g.rules, ∀ w ∈ rule.wordings, w.Sound) ∧
      ∀ name ∈ g.tokenDefs, Text.isName name = true := by
  unfold GrammarDef.parse at h
  obtain ⟨trees, htrees, h⟩ := ok_of_bind h
  have hnamed := TokenTree.named_of_parse (readTrees_eq_ok.mp htrees)
  obtain ⟨-, front, back, hsplit, hspelled⟩ := Cursor.takes_grammar h
  refine ⟨hspelled.sound ?_, Cursor.isName_of_grammar h hnamed⟩
  have htrees : trees = front ++ back := hsplit
  rw [htrees] at hnamed
  exact hnamed.right

theorem RuleDef.sound_of_parse {name source : String} {table tokens : TokenTable} {rule : RuleDef}
    (h : RuleDef.parse name source table = (.ok rule, tokens)) : ∀ w ∈ rule.wordings, w.Sound := by
  obtain ⟨trees, d, hd, htrees, hread, -, -, -⟩ := RuleDef.parse_eq_ok.mp h
  obtain ⟨used, htakes, hspelled⟩ := Cursor.takes_rule hread
  have hnamed := TokenTree.named_of_parse htrees
  have hsplit : trees = used ++ d.trees := htakes.1
  rw [hsplit] at hnamed
  exact hspelled.sound hnamed.left

/-! ## Changes that keep what is written -/

theorem RuleDef.wordings_shift (rule : RuleDef) (offset : Nat) :
    (rule.shift offset).wordings = rule.wordings :=
  Alt.filterMap_shiftAll (fun e => by cases e <;> rfl) rule.alts

theorem Grammar.wordings_demandAny (names : List String) (rule : RuleDef) :
    (demandAny names rule).wordings = rule.wordings := by
  refine Alt.filterMap_mapListOptions (fun e s => ?_) rule.alts ()
  cases e <;> rfl

namespace LeftRecursion

theorem listNodes_pointAlts (infos : List Nat) (alts : List Alt) :
    Alt.listNodes (pointAlts infos alts) = Alt.listNodes alts := by
  unfold pointAlts
  rw [List.mapIdx_eq_zipIdx_map, Alt.listNodes_eq_flatMap, Alt.listNodes_eq_flatMap, List.flatMap_map]
  conv_rhs => rw [← List.zipIdx_map_fst 0 alts, List.flatMap_map]
  refine List.flatMap_congr fun alt _ => ?_
  obtain ⟨⟨elements, options, label, extent, info⟩, i⟩ := alt
  dsimp only
  split <;> rfl

theorem wordings_linkPrimary (lr : LeftRecursion) (e : Element) :
    (lr.linkPrimary e).2.nodes.filterMap Element.wording? = e.nodes.filterMap Element.wording? := by
  unfold linkPrimary
  split
  · rw [Element.nodes, Element.nodes, listNodes_pointAlts]
    rfl
  · rfl

theorem wordings_linkOperators (lr : LeftRecursion) (e : Element) :
    (lr.linkOperators e).2.nodes.filterMap Element.wording? =
      e.nodes.filterMap Element.wording? := by
  unfold linkOperators
  split
  · simp only [Element.nodes, listNodes_pointAlts]
    rfl
  · rfl

theorem wordings_linkElements (lr : LeftRecursion) (es : List Element) :
    (Element.listNodes (lr.linkElements es).2).filterMap Element.wording? =
      (Element.listNodes es).filterMap Element.wording? := by
  unfold linkElements
  split
  · rfl
  · simp only [Element.listNodes, List.filterMap_append, wordings_linkPrimary]
  · simp only [Element.listNodes, List.filterMap_append, wordings_linkPrimary,
      wordings_linkOperators]

theorem wordings_link (lr : LeftRecursion) (rule : RuleDef) :
    (lr.link rule).2.wordings = rule.wordings := by
  unfold link
  split
  · rfl
  · next main others halts =>
    obtain ⟨elements, options, label, extent, info⟩ := main
    have hmain := lr.wordings_linkElements elements
    unfold RuleDef.wordings RuleDef.nodes
    rw [halts]
    show (Alt.listNodes (_ :: others)).filterMap Element.wording? = _
    rw [Alt.listNodes, Alt.listNodes, List.filterMap_append, List.filterMap_append]
    exact congrArg (· ++ _) hmain

end LeftRecursion

/-! ## Grammars -/

namespace Grammar

/-- The tokens of a grammar are written as names and as literals that stand for texts. -/
structure Worded (grammar : Grammar) : Prop where
  rules : ∀ definition ∈ grammar.source.rules, ∀ w ∈ definition.wordings, w.Sound
  tokenDefs : ∀ name ∈ grammar.source.tokenDefs, Text.isName name = true

theorem tokenDefs_takeRules (offset : Nat) (rules : List RuleDef) (g : GrammarDef) :
    (rules.foldl (takeRule offset) g).tokenDefs = g.tokenDefs := by
  induction rules generalizing g with
  | nil => rfl
  | cons rule rules ih =>
      rw [List.foldl_cons, ih]
      unfold takeRule
      split <;> rfl

theorem tokenDefs_takeToken (g : GrammarDef) (token : String) :
    ∀ name ∈ (takeToken g token).tokenDefs, name ∈ g.tokenDefs ∨ name = token := by
  intro name h
  unfold takeToken at h
  split at h
  · exact Or.inl h
  · exact (List.mem_append.mp h).imp_right List.mem_singleton.mp

theorem tokenDefs_takeTokens (tokens : List String) (g : GrammarDef) :
    ∀ name ∈ (tokens.foldl takeToken g).tokenDefs, name ∈ g.tokenDefs ∨ name ∈ tokens := by
  induction tokens generalizing g with
  | nil => exact fun _ h => Or.inl h
  | cons token tokens ih =>
      intro name h
      rcases ih _ name h with h | h
      · rcases tokenDefs_takeToken g token name h with h | rfl
        · exact Or.inl h
        · exact Or.inr (List.mem_cons_self ..)
      · exact Or.inr (List.mem_cons_of_mem _ h)

theorem tokenDefs_takeIn (g other : GrammarDef) :
    ∀ name ∈ (takeIn g other).tokenDefs, name ∈ g.tokenDefs ∨ name ∈ other.tokenDefs := by
  intro name h
  refine (tokenDefs_takeTokens _ _ name h).imp_left fun h => ?_
  rwa [tokenDefs_takeRules] at h

theorem worded_gather {library : Library} {file source : String} {grammar : Grammar}
    {report : Report} (h : gather library file source = (some grammar, report)) :
    grammar.Worded := by
  obtain ⟨whole, rfl, hrules, hnames⟩ := exists_collect_of_taken
    (P := fun g => (∀ rule ∈ g.rules, ∀ w ∈ rule.wordings, w.Sound) ∧
      ∀ name ∈ g.tokenDefs, Text.isName name = true)
    (fun g other hg hother =>
      ⟨forall_takeIn (fun rule offset hrule => by rwa [rule.wordings_shift]) hg.1 hother.1,
        fun name hname => (tokenDefs_takeIn g other name hname).elim (hg.2 name) (hother.2 name)⟩)
    GrammarDef.worded_of_parse h
  exact ⟨hrules, hnames⟩

variable {grammar : Grammar}

theorem rules_replaceBy (grammar : Grammar) (rule : Rule) (lr : LeftRecursion)
    (definition : RuleDef) :
    (grammar.replaceBy rule lr definition).1.source.rules = grammar.source.rules.set rule.defIndex
      (lr.link { definition with nameToken := rule.nameToken }).2 := rfl

/-- A rule gives way to one that has been read. -/
theorem Worded.replaceRule (h : grammar.Worded) (layout : Layout) (name : String) :
    (grammar.replaceRule layout name).grammar.Worded := by
  rcases grammar.replaceRule_cases layout name with ⟨-, hsame | ⟨_, _, hsame⟩⟩ |
    ⟨rule, written, issues, analysis, definition, tokens, -, -, -, hparse, _, rfl, heq⟩
  · rw [hsame]
    exact h
  · rw [hsame]
    exact ⟨h.rules, h.tokenDefs⟩
  · rw [heq]
    refine ⟨fun d hd => ?_, h.tokenDefs⟩
    rw [rules_replaceBy] at hd
    rcases List.mem_or_eq_of_mem_set hd with hd | rfl
    · exact h.rules d hd
    · have hsound := RuleDef.sound_of_parse hparse
      rw [LeftRecursion.wordings_link]
      exact hsound

theorem Worded.replaceRules (h : grammar.Worded) (layout : Layout) (names : List String) :
    (grammar.replaceRules layout names).1.Worded := by
  induction names generalizing grammar with
  | nil => exact h
  | cons name names ih => exact ih (h.replaceRule layout name)

theorem Worded.eliminate (h : grammar.Worded) (layout : Layout) :
    (grammar.eliminate layout).1.Worded := by
  have hreplaced := h.replaceRules layout grammar.leftRecursiveRules
  refine ⟨fun d hd => ?_, hreplaced.tokenDefs⟩
  obtain ⟨d', hd', rfl⟩ := List.mem_map.mp hd
  rw [wordings_demandAny]
  exact hreplaced.rules d' hd'

theorem Built.worded (h : grammar.Built) : grammar.Worded := by
  induction h with
  | gathered h => exact worded_gather h
  | replaced layout name _ ih => exact ih.replaceRule layout name
  | eliminated layout _ ih => exact ih.eliminate layout

end Grammar

end GrammarCompiler
