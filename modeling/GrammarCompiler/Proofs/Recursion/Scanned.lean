import GrammarCompiler.Proofs.Recursion.Heading
import GrammarCompiler.Proofs.Recursion.Remainder

/-!
# The text of a rule without left recursion

The text of a rule is put together from the texts of its alternatives. Each of them is that of a copy,
so the whole text is read as trees that hold the copies (`Layout.exists_trees`): an empty action in
front of the first primary alternative, a predicate in front of every operator, and bars between the
alternatives of a block.
-/

namespace GrammarCompiler

open Text (isName isGap)
open TokenTree (leaf group flats flat Alike)
open Lexeme (lexes_sign lexes_word lexes_literal punct?)

/-! ## Scanning piece by piece -/

/-- Whether a text up to its rest is scanned as the lexemes of trees alike, whatever trees stand behind
both. -/
def Scanned (cs : List Char) (ts : List TokenTree) (rest : List Char) : Prop :=
  ∃ us, (∀ {vs ws}, Alike vs ws → Alike (ts ++ vs) (us ++ ws)) ∧ Lexes cs (flats us) rest

namespace Scanned

variable {cs mid rest : List Char} {ts us : List TokenTree}

theorem refl (cs : List Char) : Scanned cs [] cs :=
  ⟨[], id, .refl cs⟩

theorem trans (h : Scanned cs ts mid) (h' : Scanned mid us rest) : Scanned cs (ts ++ us) rest := by
  obtain ⟨ts', halike, hlexes⟩ := h
  obtain ⟨us', halike', hlexes'⟩ := h'
  refine ⟨ts' ++ us', fun h => ?_, ?_⟩
  · rw [List.append_assoc, List.append_assoc]
    exact halike (halike' h)
  · rw [TokenTree.flats_append]
    exact hlexes.trans hlexes'

theorem blank {c : Char} (hc : isGap c = true) (h : Scanned cs ts rest) :
    Scanned (c :: cs) ts rest := by
  obtain ⟨us, halike, hlexes⟩ := h
  exact ⟨us, halike, .blank hc hlexes⟩

theorem blanks {w : List Char} (hw : w.all isGap = true) (h : Scanned cs ts rest) :
    Scanned (w ++ cs) ts rest := by
  induction w with
  | nil => exact h
  | cons c w ih =>
      rw [List.all_cons, Bool.and_eq_true] at hw
      exact (ih hw.2).blank hw.1

/-- What is scanned as the lexemes of the trees themselves. -/
theorem exact (h : Lexes cs (flats ts) rest) : Scanned cs ts rest :=
  ⟨ts, fun halike => halike.prepend ts, h⟩

theorem inked {text : String} (h : Inked false ts text false) (hrest : Closed rest) :
    Scanned (text.toList ++ rest) ts rest := by
  obtain ⟨us, halike, hlexes⟩ := h.exists_lexes hrest
  exact ⟨us, fun h => halike rfl h, hlexes⟩

theorem sign {c : Char} (hc : Lexeme.isSign c = true) (hrest : punct? rest = none) :
    Scanned (c :: rest) [leaf (.punct c false) .start] rest := by
  have hlexes := lexes_sign hc rest
  rw [hrest] at hlexes
  exact .exact (by simpa using hlexes)

theorem parenthesis (h : Scanned cs ts (')' :: rest)) (hcs : cs.head? ≠ some '/') :
    Scanned ('(' :: cs) [group .parenthesis .start .start ts] rest := by
  obtain ⟨us, halike, hlexes⟩ := h
  have hbody : Alike ts us := by simpa using halike .nil
  refine ⟨[group .parenthesis .start .start us],
    fun h => .group _ _ _ _ hbody (fun h => absurd rfl h) h, ?_⟩
  have hopen := Lexes.lexeme (@Lexeme.head_openParen cs fun ds hds => hcs (hds ▸ rfl))
  have hall := hopen.trans (hlexes.trans (.closing (c := ')') rfl (.refl rest)))
  simpa using hall

end Scanned

/-! ## Alternatives of a block -/

/-- Whether a text is scanned as some trees behind a space. -/
def Spaced (text : String) (ts : List TokenTree) : Prop :=
  ∀ rest, Closed rest → Scanned (' ' :: (text.toList ++ rest)) ts rest

theorem Inked.spaced {ts : List TokenTree} {text : String} (h : Inked false ts (" " ++ text) false) :
    Spaced text ts := by
  intro rest hrest
  have hscanned := Scanned.inked h hrest
  rwa [String.toList_append] at hscanned

/-- Whether alternatives are separated by a bar on a new line. -/
structure Separates (separator : String) : Prop where
  closed : ∀ cs, Closed (separator.toList ++ cs)
  scanned : ∀ {cs : List Char} {ts : List TokenTree} {rest : List Char}, Scanned (' ' :: cs) ts rest →
    Scanned (separator.toList ++ cs) (leaf (.punct '|' false) .start :: ts) rest

theorem separates_primary : Separates "\n        | " where
  closed cs := closed_cons (by decide)
  scanned h := ((Scanned.sign (c := '|') (by decide) rfl).trans h).blanks
    (w := "\n        ".toList) (by decide)

theorem separates_operators : Separates "\n          | " where
  closed cs := closed_cons (by decide)
  scanned h := ((Scanned.sign (c := '|') (by decide) rfl).trans h).blanks
    (w := "\n          ".toList) (by decide)

/-- An alternative in a text: how it is written and what elements it is a copy of. -/
structure Piece where
  text : String
  elements : List Element

/-- Whether a piece is written as a copy of its elements. -/
def Piece.IsCopy (piece : Piece) : Prop :=
  piece.elements ≠ [] ∧ ∃ ts, Spaced piece.text ts ∧ Element.ListCopied ts piece.elements

/-- Pieces with bars between them are scanned as the alternatives of a block. -/
theorem exists_spaced {separator : String} (hseparator : Separates separator) :
    ∀ {pieces : List Piece}, pieces ≠ [] → (∀ piece ∈ pieces, piece.IsCopy) →
      ∃ ts, Spaced (separator.intercalate (pieces.map (·.text))) ts ∧
        Alt.AllCopied ts (pieces.map fun piece => Alt.ofElements piece.elements)
  | [], hne, _ => absurd rfl hne
  | [piece], _, h => by
      obtain ⟨hne, ts, hspaced, hcopied⟩ := h piece (List.mem_singleton_self piece)
      refine ⟨ts, ?_, .last (hcopied.alt hne)⟩
      rw [List.map_cons, List.map_nil, String.intercalate_singleton]
      exact hspaced
  | piece :: next :: pieces, _, h => by
      obtain ⟨⟨hne, front, hfront, hcopied⟩, hothers⟩ := List.forall_mem_cons.mp h
      obtain ⟨back, hback, hcopied'⟩ := exists_spaced hseparator (List.cons_ne_nil next pieces) hothers
      refine ⟨front ++ leaf (.punct '|' false) .start :: back, fun rest hrest => ?_,
        .cons (hcopied.alt hne) hcopied'⟩
      rw [List.map_cons, String.intercalate_cons_of_ne_nil (by simp), String.toList_append,
        String.toList_append, List.append_assoc, List.append_assoc]
      exact (hfront _ (hseparator.closed _)).trans (hseparator.scanned (hback rest hrest))

/-! ## What stands in front of the alternatives -/

/-- The action in front of the first primary alternative. -/
def emptyAction : Element :=
  .action ⟨"", .ofEntries [], .nowhere⟩

def guardTest (precedence : Nat) : List TokenTree :=
  [leaf (.ident "precpred") .start, group .parenthesis .start .start
    [leaf (.ident "_ctx") .start, leaf (.punct ',' false) .start,
      leaf (.literal (toString precedence)) .start]]

def guardElement (precedence : Nat) : Element :=
  .predicate ⟨TokenTree.print (guardTest precedence),
    .ofEntries [(precedenceOption, toString precedence)], .nowhere⟩

/-- The first primary alternative begins with the empty action, even if there is none. -/
def Piece.withAction : List Piece → List Piece
  | [] => [⟨"\x7b\x7d ", [emptyAction]⟩]
  | piece :: pieces => ⟨"\x7b\x7d " ++ piece.text, emptyAction :: piece.elements⟩ :: pieces

def Piece.withGuard (precedence : Nat) (piece : Piece) : Piece :=
  ⟨Layout.standard.operator precedence piece.text, guardElement precedence :: piece.elements⟩

theorem lexes_emptyAction (rest : List Char) : Lexes ("\x7b\x7d".toList ++ rest)
    (flats [group .brace .start .start []]) rest := by
  have hall := Lexes.opening (c := '\x7b') (d := .brace) rfl (by decide)
    (Lexes.closing (c := '\x7d') (d := .brace) rfl (.refl rest))
  simpa using hall

theorem Piece.isCopy_withAction {pieces : List Piece} (h : ∀ piece ∈ pieces, piece.IsCopy) :
    ∀ piece ∈ Piece.withAction pieces, piece.IsCopy := by
  have hcopied : Element.Copied [group .brace .start .start []] emptyAction := .action
  cases pieces with
  | nil =>
      refine List.forall_mem_singleton.mpr ⟨nofun, _, fun rest hrest => ?_,
        .front rfl rfl hcopied .nil⟩
      exact ((Scanned.exact (lexes_emptyAction (' ' :: rest))).trans
        ((Scanned.refl rest).blank (by decide))).blank (by decide)
  | cons piece pieces =>
      obtain ⟨⟨-, ts, hspaced, hpiece⟩, hothers⟩ := List.forall_mem_cons.mp h
      refine List.forall_mem_cons.mpr ⟨⟨nofun, _, fun rest hrest => ?_,
        .front rfl rfl hcopied hpiece⟩, hothers⟩
      rw [show ("\x7b\x7d " ++ piece.text).toList ++ rest =
        "\x7b\x7d".toList ++ ' ' :: (piece.text.toList ++ rest) by simp]
      exact ((Scanned.exact (lexes_emptyAction (' ' :: (piece.text.toList ++ rest)))).trans
        (hspaced rest hrest)).blank (by decide)

theorem Piece.text_withAction (separator : String) (pieces : List Piece) :
    "\x7b\x7d " ++ separator.intercalate (pieces.map (·.text)) =
      separator.intercalate ((Piece.withAction pieces).map (·.text)) := by
  cases pieces with
  | nil => simp [Piece.withAction]
  | cons piece pieces =>
      cases pieces with
      | nil => simp [Piece.withAction]
      | cons next pieces => simp [Piece.withAction, String.intercalate_cons_cons, String.append_assoc]

/-- The options of the predicate of an operator. -/
theorem exists_guardOptions (precedence : Nat) : ∃ ts,
    EntriesPrinted [(precedenceOption, toString precedence)] ts ∧
      EntriesSpelled [(precedenceOption, toString precedence)] ts := by
  have hbare := Literal.isBareLiteral_toString precedence
  refine ⟨_, .last (by decide) (.literal hbare), _, _, .start, .start, rfl, .value _ .start ?_⟩
  have hvalue := ValueSpelled.literal (toString precedence) .start
  rwa [hbare.2] at hvalue

theorem lexes_guardTest (precedence : Nat) (rest : List Char) :
    Lexes ((Layout.standard.predicate precedence).toList ++ '\x7d' :: rest)
      (flats (guardTest precedence)) ('\x7d' :: rest) := by
  have hbare := Literal.isBareLiteral_toString precedence
  have hnumber := lexes_literal hbare.1 (show Text.Clear (')' :: '\x7d' :: rest) from
    Text.clear_cons (by decide))
  have hclose := Lexes.closing (c := ')') (d := .parenthesis) rfl (.refl ('\x7d' :: rest))
  have hcomma := lexes_sign (c := ',') (by decide)
    (' ' :: ((toString precedence).toList ++ ')' :: '\x7d' :: rest))
  have hcontext := lexes_word (show isName "_ctx" = true by decide)
    (show Text.Clear (',' :: ' ' :: ((toString precedence).toList ++ ')' :: '\x7d' :: rest)) from
      Text.clear_cons (by decide))
  have hopen := Lexes.lexeme (@Lexeme.head_openParen
    ("_ctx".toList ++ ',' :: ' ' :: ((toString precedence).toList ++ ')' :: '\x7d' :: rest)) nofun)
  have hname := lexes_word (show isName "precpred" = true by decide)
    (show Text.Clear ('(' :: ("_ctx".toList ++ ',' :: ' ' ::
      ((toString precedence).toList ++ ')' :: '\x7d' :: rest))) from Text.clear_cons (by decide))
  have hall := hname.trans (hopen.trans (hcontext.trans (hcomma.trans
    (.blank (c := ' ') (by decide) (hnumber.trans hclose)))))
  rw [show punct? (' ' :: _) = none from rfl] at hall
  rw [show Layout.standard.predicate precedence =
    "precpred(" ++ "_ctx" ++ ", " ++ toString precedence ++ ")" from rfl]
  simpa [guardTest] using hall

/-- The predicate of an operator. -/
theorem exists_guard (precedence : Nat) : ∃ ts, Element.Copied ts (guardElement precedence) ∧
    ∀ text rest, Closed rest → Scanned
      ((Layout.standard.operator precedence text).toList ++ rest)
      ts (' ' :: (text.toList ++ rest)) := by
  obtain ⟨ts, hprinted, hspelled⟩ := exists_guardOptions precedence
  refine ⟨_, @Element.Copied.predicate .start .start _ true .start _ _
    (.some false .start hspelled), fun text rest hrest => .exact ?_⟩
  obtain ⟨hmark, cs, hcs⟩ := hprinted.lexes_mark (show Closed (' ' :: (text.toList ++ rest)) from
    closed_cons (by decide))
  have hquestion := lexes_sign (c := '?') (by decide)
    ((markText [(precedenceOption, toString precedence)]).toList ++ ' ' :: (text.toList ++ rest))
  rw [hcs, Lexeme.punct?_sign (by decide), ← hcs] at hquestion
  have hclose := Lexes.closing (c := '\x7d') (d := .brace) rfl (.refl ('?' ::
    ((markText [(precedenceOption, toString precedence)]).toList ++ ' ' :: (text.toList ++ rest))))
  have htest := lexes_guardTest precedence ('?' ::
    ((markText [(precedenceOption, toString precedence)]).toList ++ ' ' :: (text.toList ++ rest)))
  have hopen := Lexes.opening (c := '\x7b') (d := .brace) rfl (by decide)
    (htest.trans (hclose.trans (hquestion.trans hmark)))
  have htext : (Layout.standard.operator precedence text).toList ++ rest =
      '\x7b' :: ((Layout.standard.predicate precedence).toList ++ '\x7d' :: '?' ::
        ((markText [(precedenceOption, toString precedence)]).toList ++
          ' ' :: (text.toList ++ rest))) := by
    simp [Layout.operator, markText, entriesText, Layout.standard]
  rw [htext]
  simpa using hopen

theorem Piece.IsCopy.withGuard {piece : Piece} (h : piece.IsCopy) (precedence : Nat) :
    (piece.withGuard precedence).IsCopy := by
  obtain ⟨-, ts, hspaced, hpiece⟩ := h
  obtain ⟨guard, hguard, hscanned⟩ := exists_guard precedence
  exact ⟨nofun, _, fun rest hrest => ((hscanned piece.text rest hrest).trans
    (hspaced rest hrest)).blank (by decide), .front rfl rfl hguard hpiece⟩

/-! ## The heading -/

/-- Whether code in brackets is written as it is. -/
def CodePrinted (code : String) (t : TokenTree) : Prop :=
  ∃ opened closed body, t = group .bracket opened closed body ∧ TokenTree.print body = code ∧
    IsPrinted t

theorem CodePrinted.scanned {code : String} {t : TokenTree} (h : CodePrinted code t)
    (rest : List Char) : Scanned ('[' :: (code.toList ++ ']' :: rest)) [t] rest := by
  obtain ⟨opened, closed, body, rfl, rfl, hprinted⟩ := h
  have hlexes := hprinted rest
  rw [show (group .bracket opened closed body).text = "[" ++ TokenTree.print body ++ "]" from rfl]
    at hlexes
  exact .exact (by simpa using hlexes)

inductive ArgumentsPrinted : Option String → List TokenTree → Prop
  | none : ArgumentsPrinted none []
  | some {code : String} {t : TokenTree} : CodePrinted code t → ArgumentsPrinted (some code) [t]

inductive ResultsPrinted : Option String → List TokenTree → Prop
  | none : ResultsPrinted none []
  | some {code : String} {t : TokenTree} : CodePrinted code t →
      ResultsPrinted (some code) [leaf (.ident "returns") .start, t]

namespace Layout

theorem scanned_heading (rule : OperatorRule) (hname : isName rule.name = true)
    {args results : List TokenTree} (hargs : ArgumentsPrinted rule.args args)
    (hresults : ResultsPrinted rule.returns results) {rest : List Char} (hrest : Closed rest) :
    Scanned ((heading rule).toList ++ rest) (leaf (.ident rule.name) .start :: (args ++ results))
      rest := by
  have hback : Scanned ((rule.returns.elim "" fun code => " returns [" ++ code ++ "]").toList ++ rest)
      results rest ∧
      Text.Clear ((rule.returns.elim "" fun code => " returns [" ++ code ++ "]").toList ++ rest) := by
    generalize rule.returns = returns at hresults
    cases hresults with
    | none => exact ⟨by simpa using Scanned.refl rest, by simpa using hrest.clear⟩
    | @some code t hcode =>
        have hword := Lexeme.lexes_word (show isName "returns" = true by decide)
          (show Text.Clear (' ' :: '[' :: (code.toList ++ ']' :: rest)) from
            Text.clear_cons (by decide))
        have hscanned : Scanned _ [leaf (.ident "returns") .start] _ :=
          .exact (by simpa using hword)
        have hall := (hscanned.trans ((hcode.scanned rest).blank (by decide))).blank (c := ' ')
          (by decide)
        refine ⟨by simpa using hall, ?_⟩
        simpa using Text.clear_cons (c := ' ') (by decide)
  have hfront : ∀ {cs : List Char}, Text.Clear cs →
      Scanned ((rule.args.elim "" fun code => "[" ++ code ++ "]").toList ++ cs) args cs ∧
        Text.Clear ((rule.args.elim "" fun code => "[" ++ code ++ "]").toList ++ cs) := by
    intro cs hcs
    generalize rule.args = arguments at hargs
    cases hargs with
    | none => exact ⟨by simpa using Scanned.refl cs, by simpa using hcs⟩
    | some hcode =>
        refine ⟨by simpa using hcode.scanned cs, ?_⟩
        simpa using Text.clear_cons (c := '[') (by decide)
  obtain ⟨hback, hclear⟩ := hback
  obtain ⟨hfront, hclear⟩ := hfront hclear
  have hword : Scanned _ [leaf (.ident rule.name) .start] _ :=
    .exact (by simpa using Lexeme.lexes_word hname hclear)
  unfold heading
  simpa using hword.trans (hfront.trans hback)

/-! ## The whole text -/

/-- A rule that is written from pieces. -/
def ofPieces (name : String) (args returns : Option String) (primary : List Piece)
    (operators : List (Nat × Piece)) : OperatorRule where
  name := name
  args := args
  returns := returns
  primary := primary.map (·.text)
  operators := operators.map fun (precedence, piece) => (precedence, piece.text)

/-- The elements of the one alternative of a rule: a block of the primary alternatives, and a loop over
those of the operators if there are any. -/
def mainElements (primary : List Piece) (operators : List (Nat × Piece)) : List Element :=
  .block ((Piece.withAction primary).map fun piece => Alt.ofElements piece.elements) (.ofEntries [])
    .nowhere ::
    if operators.isEmpty then [] else
      [.suffixed .closure true (.block (operators.map fun (precedence, piece) =>
        Alt.ofElements (piece.withGuard precedence).elements) (.ofEntries []) .nowhere) .nowhere]

theorem exists_loop {operators : List (Nat × Piece)} (h : ∀ o ∈ operators, o.2.IsCopy)
    (rule : OperatorRule)
    (hrule : rule.operators = operators.map fun (precedence, piece) => (precedence, piece.text)) :
    ∃ ts, (∀ rest, Closed rest →
        Scanned ((standard.operatorLoop rule).toList ++ rest) ts rest) ∧
      Element.ListCopied ts (if operators.isEmpty then [] else
        [.suffixed .closure true (.block (operators.map fun (precedence, piece) =>
          Alt.ofElements (piece.withGuard precedence).elements) (.ofEntries []) .nowhere)
          .nowhere]) := by
  unfold operatorLoop
  rw [hrule, List.isEmpty_map]
  split
  · exact ⟨[], fun rest _ => by simpa using Scanned.refl rest, .nil⟩
  · next hne =>
      have hcopies : ∀ piece ∈ operators.map fun (precedence, piece) => piece.withGuard precedence,
          piece.IsCopy := List.forall_mem_map.mpr fun o ho => (h o ho).withGuard o.1
      obtain ⟨body, hspaced, hcopied⟩ := exists_spaced separates_operators (by simpa using hne) hcopies
      rw [List.map_map] at hspaced hcopied
      refine ⟨group .parenthesis .start .start body :: [leaf (.punct '*' false) .start],
        fun rest hrest => ?_, ?_⟩
      · have hsign := Scanned.sign (c := '*') (by decide) hrest.punct?
        have hclose : Closed ("\n        )*".toList ++ rest) := closed_cons (by decide)
        have hend : Scanned ("\n        )*".toList ++ rest) [] (')' :: '*' :: rest) :=
          (Scanned.refl _).blanks (w := "\n        ".toList) (by decide)
        have hbody := ((hspaced _ hclose).trans hend).blanks (w := "\n         ".toList) (by decide)
        have hgroup := ((hbody.parenthesis (by simp)).trans hsign).blanks
          (w := "\n        ".toList) (by decide)
        simpa [Function.comp_def, Piece.withGuard] using hgroup
      · have hblock := @Element.Copied.block .start .start _ _ hcopied
        exact .front rfl rfl (.suffixed rfl hblock (.greedy .closure false .start) nofun) .nil

theorem exists_primary {primary : List Piece} (h : ∀ piece ∈ primary, piece.IsCopy)
    (rule : OperatorRule) (hrule : rule.primary = primary.map (·.text)) :
    ∃ t, (∀ rest, Scanned ((primaryBlock rule).toList ++ rest) [t] rest) ∧
      Element.Copied [t] (.block ((Piece.withAction primary).map fun piece =>
        Alt.ofElements piece.elements) (.ofEntries []) .nowhere) := by
  have hne : Piece.withAction primary ≠ [] := by cases primary <;> exact nofun
  obtain ⟨body, hspaced, hcopied⟩ :=
    exists_spaced separates_primary hne (Piece.isCopy_withAction h)
  rw [← Piece.text_withAction] at hspaced
  refine ⟨group .parenthesis .start .start body, fun rest => ?_, .block hcopied⟩
  have hend : Scanned ("\n        )".toList ++ rest) [] (')' :: rest) :=
    (Scanned.refl _).blanks (w := "\n        ".toList) (by decide)
  have hbody := (hspaced ("\n        )".toList ++ rest) (closed_cons (by decide))).trans hend
  unfold primaryBlock
  rw [hrule]
  simpa using hbody.parenthesis (by simp)

/-- The text of a rule is read as the trees of its one alternative behind the heading. -/
theorem exists_trees {name : String} {args returns : Option String} {primary : List Piece}
    {operators : List (Nat × Piece)} (hname : isName name = true) {arguments results : List TokenTree}
    (hargs : ArgumentsPrinted args arguments) (hresults : ResultsPrinted returns results)
    (hprimary : ∀ piece ∈ primary, piece.IsCopy) (hoperators : ∀ o ∈ operators, o.2.IsCopy) :
    ∃ body trees, Alt.Copied body (Alt.ofElements (mainElements primary operators)) ∧
      TokenTree.parse (standard.rule (ofPieces name args returns primary operators)) = .ok trees ∧
      Alike (leaf (.ident name) .start :: (arguments ++ results ++ leaf (.punct ':' false) .start ::
        (body ++ [leaf (.punct ';' false) .start]))) trees := by
  let rule := ofPieces name args returns primary operators
  obtain ⟨t, hblock, hcopied⟩ := exists_primary hprimary rule rfl
  obtain ⟨loop, hloop, hcopied'⟩ := exists_loop hoperators rule rfl
  have hheading := scanned_heading rule hname hargs hresults
    (show Closed ("\n    :   ".toList ++ ((primaryBlock rule).toList ++
      ((standard.operatorLoop rule).toList ++ "\n    ;".toList))) from closed_cons (by decide))
  have hbody := (hblock _).trans (hloop "\n    ;".toList (closed_cons (by decide)))
  have hcolon := ((Scanned.sign (c := ':') (by decide) rfl).trans
    (hbody.blanks (w := "   ".toList) (by decide))).blanks (w := "\n    ".toList) (by decide)
  have hlast : Scanned [';'] _ [] := .sign (by decide) rfl
  have hend := hlast.blanks (w := "\n    ".toList) (by decide)
  obtain ⟨us, halike, hlexes⟩ := hheading.trans (hcolon.trans hend)
  have htext : (standard.rule rule).toList = (heading rule).toList ++ ("\n    :   ".toList ++
      ((primaryBlock rule).toList ++ ((standard.operatorLoop rule).toList ++ "\n    ;".toList))) := by
    simp [Layout.rule]
  rw [← htext] at hlexes
  obtain ⟨trees, hparse, halike'⟩ :=
    TokenTree.parse_of_lexes (@lexes_heading standard rule hname).1 hlexes
  refine ⟨[t] ++ loop, trees, ?_, hparse, ?_⟩
  · exact (Element.ListCopied.front rfl rfl hcopied hcopied').alt nofun
  · have hall := (halike .nil).trans (by simpa using halike')
    simpa [rule, ofPieces] using hall

end Layout

end GrammarCompiler
