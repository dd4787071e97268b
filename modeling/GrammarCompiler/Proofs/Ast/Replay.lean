import GrammarCompiler.Proofs.Ast.Agreement
import GrammarCompiler.Proofs.Ast.Rules

/-!
# Reading the text of a rule

The text of the tokens of a rule is read as that rule, into any table: only the token indexes differ,
by the distance between the two tables (`RuleDef.parse_text`). No assumption is made on the rule but
that it was read.

The descent is followed on trees alike, reader by reader. Those that call each other are treated
together, by induction on the trees ahead as in their definition.
-/

namespace GrammarCompiler

open Text (Position)
open TokenTree (leaf group Clean)

variable {m n : Nat} {c c' : Cursor}

namespace Cursor

/-- The suffix that an element has, and its index. -/
def suffix? (c : Cursor) : Option (Suffix × Nat × c.Shorter) :=
  if c.atPunct "?" then (c.punct? '?').map fun (i, d) => (.optional, i, d)
  else if c.atPunct "*" && !c.atPunct "*=" then
    (c.punct? '*').map fun (i, d) => (.closure, i, d)
  else if c.atPunct "+" && !c.atPunct "+=" then
    (c.punct? '+').map fun (i, d) => (.positiveClosure, i, d)
  else none

theorem size_lt_trans {c d e : Cursor} (hd : d.size < c.size) (he : e.size < d.size) :
    e.size < c.size :=
  Nat.lt_trans he hd

theorem suffixed_eq (c : Cursor) (element : Element) :
    c.suffixed element = match c.suffix? with
      | none => .ok (element, ⟨c, Nat.le_refl _⟩)
      | some (suffix, index, ⟨d, hd⟩) =>
        match d.punct? '?' with
        | some (mark, ⟨e, he⟩) =>
          .ok (.suffixed suffix false element ⟨element.extent.start, mark⟩,
            ⟨e, Nat.le_of_lt (size_lt_trans hd he)⟩)
        | none =>
          .ok (.suffixed suffix true element ⟨element.extent.start, index⟩, ⟨d, Nat.le_of_lt hd⟩) :=
  rfl

namespace Alike

theorem options (h : c.Alike m n c') :
    Agrees m n (fun offset options => options.shift offset) c c.options c'.options := by
  unfold Cursor.options
  rcases h.punct? '<' (by decide) with ⟨hnone, hnone'⟩ |
    ⟨start, d, hd, start', d', hd', hread, hread', hstart, halike, hpast⟩
  · rw [hnone, hnone']
    exact .ok rfl h (.refl c)
  · rw [hread, hread']
    dsimp only
    refine (halike.optionEntries.past hpast).bind ?_
    rintro ⟨entries, stop⟩ e he ⟨entries', stop'⟩ e' he' heq halike'
    obtain ⟨rfl, hstop⟩ := Prod.mk.inj heq
    exact .ok (by simp [Options.shift, Extent.shift, hstart, hstop]) halike' (.refl e)


/-! ## Elements of one symbol -/

theorem quotation (h : c.Alike m n c') :
    Agrees m n (fun offset literal => literal.shift offset) c c.quotation c'.quotation := by
  unfold Cursor.quotation
  refine h.literal.bind ?_
  rintro ⟨text, i, value⟩ d hd ⟨text', i', value'⟩ d' hd' heq halike
  obtain ⟨rfl, hi, rfl⟩ := LiteralToken.mk.inj heq
  dsimp only
  split
  · exact .error
  · next value =>
      split
      · exact .error
      · exact .ok (by simp [Quotation.shift, Extent.shift, Extent.single, hi, Options.shift,
          Options.none]) halike (.refl d)

theorem quotationOrRange (h : c.Alike m n c') :
    Agrees m n Element.moved c c.quotationOrRange c'.quotationOrRange := by
  unfold Cursor.quotationOrRange
  refine h.quotation.bind ?_
  rintro first d hd first' d' hd' hfirst halike
  have hstart : first.extent.start + m = first'.extent.start + n :=
    congrArg (·.extent.start) hfirst
  dsimp only
  rcases halike.pair? '.' '.' (by decide) (by decide) with ⟨hnone, hnone'⟩ |
    ⟨_, e, he, _, e', he', hread, hread', -, halike', hpast⟩
  · rw [hnone, hnone']
    dsimp only
    refine halike.options.bind ?_
    rintro options e he options' e' he' hoptions halike'
    refine .ok ?_ halike' (.refl e)
    have hvalue : first.value = first'.value := congrArg (·.value) hfirst
    have htext : first.text = first'.text := congrArg (·.text) hfirst
    simp only [Element.moved, Quotation.shift, Extent.shift, ← stopOf_shift, hstart, hoptions, hvalue,
      htext]
  · rw [hread, hread']
    dsimp only
    refine (halike'.quotation.past hpast).bind ?_
    rintro last f hf last' f' hf' hlast halike''
    refine .ok ?_ halike'' (.refl f)
    have hstop : last.extent.start + m = last'.extent.start + n :=
      congrArg (·.extent.start) hlast
    simp only [Element.moved, Extent.shift, hfirst, hlast, hstart, hstop]

theorem reference (h : c.Alike m n c') :
    Agrees m n Element.moved c c.reference c'.reference := by
  unfold Cursor.reference
  refine h.ident.bind ?_
  rintro ⟨name, i⟩ d hd ⟨name', i'⟩ d' hd' heq halike
  obtain ⟨rfl, hi⟩ := Prod.mk.inj heq
  dsimp only
  split
  · refine halike.options.bind ?_
    rintro options e he options' e' he' hoptions halike'
    refine .ok ?_ halike' (.refl e)
    simp only [Element.moved, Extent.shift, ← stopOf_shift, hi, hoptions]
  · rw [halike.atGroup_eq]
    split
    · refine halike.arguments.bind ?_
      rintro args e he args' e' he' hargs halike'
      refine halike'.options.bind ?_
      rintro options f hf options' f' hf' hoptions halike''
      refine .ok ?_ halike'' (.refl f)
      have hstop : args.extent.stop + m = args'.extent.stop + n :=
        congrArg (·.extent.stop) hargs
      simp only [Element.moved, RuleRef.shift, Option.map_some, Extent.shift, ← stopOf_shift, hi,
        hoptions, hargs, hstop]
    · refine halike.options.bind ?_
      rintro options e he options' e' he' hoptions halike'
      refine .ok ?_ halike' (.refl e)
      simp only [Element.moved, RuleRef.shift, Option.map_none, Extent.shift, ← stopOf_shift, hi,
        hoptions]

theorem embedded (h : c.Alike m n c') :
    Agrees m n Element.moved c c.embedded c'.embedded := by
  unfold Cursor.embedded
  refine (h.opaqueGroup (by decide) _).bind ?_
  rintro ⟨i, text⟩ d hd ⟨i', text'⟩ d' hd' heq halike
  obtain ⟨hi, rfl⟩ := Prod.mk.inj heq
  dsimp only
  rcases halike.punct? '?' (by decide) with ⟨hnone, hnone'⟩ |
    ⟨mark, e, he, mark', e', he', hread, hread', hmark, halike', hpast⟩
  · rw [hnone, hnone']
    exact .ok (by simp [Element.moved, Snippet.shift, Extent.shift, Extent.single, hi,
      Options.shift, Options.none]) halike (.refl d)
  · rw [hread, hread']
    dsimp only
    refine (halike'.options.past hpast).bind ?_
    rintro options f hf options' f' hf' hoptions halike''
    refine .ok ?_ halike'' (.refl f)
    simp only [Element.moved, Snippet.shift, Extent.shift, ← stopOf_shift, hi, hmark, hoptions]

theorem wildcard (h : c.Alike m n c') :
    Agrees m n Element.moved c c.wildcard c'.wildcard := by
  unfold Cursor.wildcard
  refine (h.punct (by decide)).bind ?_
  rintro i d hd i' d' hd' hi halike
  refine halike.options.bind ?_
  rintro options e he options' e' he' hoptions halike'
  refine .ok ?_ halike' (.refl e)
  simp only [Element.moved, Extent.shift, ← stopOf_shift, hi, hoptions]

/-! ## Parts of an alternative -/

theorem atAltEnd_eq (h : c.Alike m n c') : c.atAltEnd = c'.atAltEnd := by
  simp only [atAltEnd, h.isEmpty_eq, h.atPunct_eq]

theorem atLabel_eq (h : c.Alike m n c') : c.atLabel = c'.atLabel := by
  simp only [atLabel, h.atIdent_eq, h.second.atPunct_eq]

/-- The cursor at the beginning of a group. -/
theorem inside {body body' : List TokenTree} (h : c.Alike m n c')
    (hbody : TokenTree.Alike body body') (closed closed' : Position) :
    (c.inside body closed).Alike m n (c'.inside body' closed') :=
  ⟨hbody, by have := h.index; simp only [Cursor.inside]; omega, h.stray⟩

theorem commandArg (h : c.Alike m n c') :
    Agrees m n (fun offset (a : Option String × Option Nat) => (a.1, a.2.map (· + offset))) c
      c.commandArg c'.commandArg := by
  obtain ⟨trees, index, ending, stray⟩ := c
  obtain ⟨trees', index', ending', stray'⟩ := c'
  have htrees : TokenTree.Alike trees trees' := h.trees
  cases htrees with
  | @group delimiter _ closed _ closed' body body' ts us hbody _ hts =>
      cases delimiter with
      | parenthesis =>
          cases hbody with
          | @ident text p q left left' hleft =>
              have hindex := h.index
              have hwidth := hleft.widths_eq
              refine .ok ?_ ⟨hts, ?_, ?_⟩ fun hstray => ?_
              · simp only [TokenTree.width_parenthesis, TokenTree.widths_cons,
                  TokenTree.width_leaf, Option.map_some, hwidth] at hindex ⊢
                refine congrArg (fun i => (some text, some i)) ?_
                omega
              · simp only [TokenTree.width_parenthesis, TokenTree.widths_cons,
                  TokenTree.width_leaf, hwidth, Cursor.behind] at hindex ⊢
                omega
              · have := h.stray
                cases stray <;> cases stray' <;> cases hleft <;> first | rfl | cases this
              · cases stray with
                | some => cases hstray
                | none =>
                    cases hleft with
                    | nil => exact ⟨rfl, fun hrest => hrest.parenthesis (Clean.nil.ident _ _) _ _⟩
                    | _ => cases hstray
          | _ => exact .error
      | _ => exact .ok rfl h (.refl _)
  | _ => exact .ok rfl h (.refl _)

theorem commands {c c' : Cursor} (h : c.Alike m n c') :
    Agrees m n Element.movedAll c c.commands c'.commands := by
  rw [Cursor.commands, Cursor.commands]
  refine h.ident.bind ?_
  rintro ⟨name, i⟩ d hd ⟨name', i'⟩ d' hd' heq halike
  obtain ⟨rfl, hi⟩ := Prod.mk.inj heq
  refine halike.commandArg.bind ?_
  rintro ⟨arg, close⟩ e he ⟨arg', close'⟩ e' he' heq halike'
  obtain ⟨rfl, hclose⟩ := Prod.mk.inj heq
  have hcommand : (Element.command name arg ⟨i, close.getD i⟩).moved m =
      (Element.command name arg ⟨i', close'.getD i'⟩).moved n := by
    cases close <;> cases close' <;> simp_all [Element.moved, Extent.shift]
  dsimp only
  rcases halike'.punct? ',' (by decide) with ⟨hnone, hnone'⟩ |
    ⟨_, f, hf, _, f', hf', hread, hread', -, halike'', hpast⟩
  · rw [hnone, hnone']
    exact .ok (congrArg ([·]) hcommand) halike' (.refl e)
  · rw [hread, hread']
    dsimp only
    have : f.size < c.size := by omega
    refine (halike''.commands.past hpast).bind ?_
    rintro rest g hg rest' g' hg' hrest halike
    exact .ok (congrArg₂ (· :: ·) hcommand hrest) halike (.refl g)
termination_by c.size

theorem commandList (h : c.Alike m n c') :
    Agrees m n Element.movedAll c c.commandList c'.commandList := by
  unfold Cursor.commandList
  rcases h.pair? '-' '>' (by decide) (by decide) with ⟨hnone, hnone'⟩ |
    ⟨_, d, hd, _, d', hd', hread, hread', -, halike, hpast⟩
  · rw [hnone, hnone']
    exact .ok rfl h (.refl c)
  · rw [hread, hread']
    dsimp only
    refine (halike.commands.past hpast).bind ?_
    rintro commands e he commands' e' he' hcommands halike'
    exact .ok hcommands halike' (.refl e)

theorem altLabel (h : c.Alike m n c') :
    Agrees m n (fun offset label => label.map fun (l : AltLabel × Nat) =>
      (l.1.shift offset, l.2 + offset)) c c.altLabel c'.altLabel := by
  obtain ⟨trees, index, ending, stray⟩ := c
  obtain ⟨trees', index', ending', stray'⟩ := c'
  have htrees : TokenTree.Alike trees trees' := h.trees
  have hindex : index + m = index' + n := h.index
  unfold Cursor.altLabel Cursor.punct? Cursor.punct
  cases htrees with
  | @punct char joint joint' p q ts us _ hts =>
      dsimp only
      by_cases hchar : char = '#'
      · subst hchar
        rw [if_pos rfl, if_pos rfl]
        -- A `#` alone is not clean, but with the name behind it.
        cases hts with
        | @ident name r s ts us hts =>
            refine .ok ?_ (h.behind hts 2) (past_behind (.label · _ _ _ _) 2)
            simp [AltLabel.shift, Cursor.behind, hindex]
            omega
        | _ => exact .error
      · rw [if_neg hchar, if_neg hchar]
        exact .ok rfl h (.refl _)
  | _ => exact .ok rfl h (.refl _)

/-- The suffix of an element. -/
theorem suffix? (h : c.Alike m n c') : (c.suffix? = none ∧ c'.suffix? = none) ∨
    ∃ suffix i d hd i' d' hd', c.suffix? = some (suffix, i, ⟨d, hd⟩) ∧
      c'.suffix? = some (suffix, i', ⟨d', hd'⟩) ∧ i + m = i' + n ∧ d.Alike m n d' ∧ c.Past d := by
  have hchar : ∀ (suffix : Suffix) {char : Char}, char ≠ '\'' ∧ char ≠ '#' →
      ((c.punct? char).map (fun (i, d) => (suffix, i, d)) = none ∧
        (c'.punct? char).map (fun (i, d) => (suffix, i, d)) = none) ∨
      ∃ suffix' i d hd i' d' hd',
        (c.punct? char).map (fun (i, d) => (suffix, i, d)) = some (suffix', i, ⟨d, hd⟩) ∧
        (c'.punct? char).map (fun (i, d) => (suffix, i, d)) = some (suffix', i', ⟨d', hd'⟩) ∧
        i + m = i' + n ∧ d.Alike m n d' ∧ c.Past d := by
    intro suffix char hchar
    rcases h.punct? char hchar with ⟨hnone, hnone'⟩ |
      ⟨i, d, hd, i', d', hd', hread, hread', hi, halike, hpast⟩
    · rw [hnone, hnone']
      exact .inl ⟨rfl, rfl⟩
    · rw [hread, hread']
      exact .inr ⟨suffix, i, d, hd, i', d', hd', rfl, rfl, hi, halike, hpast⟩
  unfold Cursor.suffix?
  simp only [h.atPunct_eq]
  split
  · exact hchar .optional (by decide)
  split
  · exact hchar .closure (by decide)
  split
  · exact hchar .positiveClosure (by decide)
  · exact .inl ⟨rfl, rfl⟩

theorem suffixed (h : c.Alike m n c') {element element' : Element}
    (helement : element.moved m = element'.moved n) :
    Agrees m n Element.moved c (c.suffixed element) (c'.suffixed element') := by
  have hstart : element.extent.start + m = element'.extent.start + n :=
    congrArg (·.start) (Element.extent_eq_of_moved helement)
  rw [suffixed_eq, suffixed_eq]
  rcases h.suffix? with ⟨hnone, hnone'⟩ |
    ⟨suffix, i, d, hd, i', d', hd', hread, hread', hi, halike, hpast⟩
  · rw [hnone, hnone']
    exact .ok helement h (.refl c)
  rw [hread, hread']
  dsimp only
  rcases halike.punct? '?' (by decide) with ⟨hnone, hnone'⟩ |
    ⟨mark, e, he, mark', e', he', hread, hread', hmark, halike', hpast'⟩
  · rw [hnone, hnone']
    exact .ok (by simp [Element.moved, Extent.shift, helement, hstart, hi]) halike hpast
  · rw [hread, hread']
    exact .ok (by simp [Element.moved, Extent.shift, helement, hstart, hmark]) halike'
      (hpast.trans hpast')

theorem elementLabel (h : c.Alike m n c') :
    Agrees m n (fun offset label => label.map fun (l : ElementLabel) => l.moved offset) c
      c.elementLabel c'.elementLabel := by
  unfold Cursor.elementLabel
  rw [h.atLabel_eq]
  split
  · refine h.ident.bind ?_
    rintro ⟨name, i⟩ d hd ⟨name', i'⟩ d' hd' heq halike
    obtain ⟨rfl, hi⟩ := Prod.mk.inj heq
    dsimp only
    rcases halike.pair? '+' '=' (by decide) (by decide) with
      ⟨hnone, hnone'⟩ | ⟨_, e, he, _, e', he', hread, hread', -, halike', hpast⟩
    · rw [hnone, hnone']
      dsimp only
      refine (halike.punct (by decide)).bind ?_
      rintro _ e he _ e' he' - halike'
      exact .ok (by simp [ElementLabel.moved, hi]) halike' (.refl e)
    · rw [hread, hread']
      exact .ok (by simp [ElementLabel.moved, hi]) halike' hpast
  · exact .ok rfl h (.refl c)

end Alike

/-! ## The descent -/

def symbol (c : Cursor) : Except SyntaxError (Element × c.Shorter) := do
  match c.punct? '~' with
  | some (tilde, ⟨d, hd⟩) =>
    let (operand, ⟨e, he⟩) ← d.setOperand
    .ok (.not operand ⟨tilde, operand.extent.stop⟩, ⟨e, size_lt_trans hd he⟩)
  | none =>
    if c.atPunct "." && !c.atPunct ".." then c.wildcard
    else if c.atLiteral then c.quotationOrRange
    else c.reference

theorem atom_nil (h : c.trees = []) : c.atom = c.symbol := by
  obtain ⟨trees, index, ending, stray⟩ := c
  obtain rfl : trees = [] := h
  rw [atom]
  rfl

theorem atom_leaf {token : Leaf} {p : Position} {ts : List TokenTree}
    (h : c.trees = leaf token p :: ts) : c.atom = c.symbol := by
  obtain ⟨trees, index, ending, stray⟩ := c
  obtain rfl : trees = leaf token p :: ts := h
  rw [atom]
  rfl

theorem atom_brace {opened closed : Position} {body ts : List TokenTree}
    (h : c.trees = group .brace opened closed body :: ts) : c.atom = c.embedded := by
  obtain ⟨trees, index, ending, stray⟩ := c
  obtain rfl : trees = group .brace opened closed body :: ts := h
  rw [atom]

theorem atom_bracket {opened closed : Position} {body ts : List TokenTree}
    (h : c.trees = group .bracket opened closed body :: ts) :
    c.atom = .error (c.expected .noArguments) := by
  obtain ⟨trees, index, ending, stray⟩ := c
  obtain rfl : trees = group .bracket opened closed body :: ts := h
  rw [atom]

theorem atom_parenthesis {opened closed : Position} {body ts : List TokenTree}
    (h : c.trees = group .parenthesis opened closed body :: ts) : c.atom = (do
      let (alts, ⟨d, _⟩) ← (c.inside body closed).alts
      if !d.trees.isEmpty then .error (d.expected .blockEnd)
      else
        let width := (group .parenthesis opened closed body).width
        .ok (.block alts .none ⟨c.index, c.index + width - 1⟩,
          ⟨{ c.behind ts width with stray := d.stray }, size_behind_lt h width⟩)) := by
  obtain ⟨trees, index, ending, stray⟩ := c
  obtain rfl : trees = group .parenthesis opened closed body :: ts := h
  rw [atom]

theorem setOperand_parenthesis {opened closed : Position} {body ts : List TokenTree}
    (h : c.trees = group .parenthesis opened closed body :: ts) : c.setOperand = (do
      let (elements, ⟨d, _⟩) ← (c.inside body closed).setElements
      if !d.trees.isEmpty then .error (d.expected .setEnd)
      else
        let width := (group .parenthesis opened closed body).width
        .ok (.set elements ⟨c.index, c.index + width - 1⟩,
          ⟨{ c.behind ts width with stray := d.stray }, size_behind_lt h width⟩)) := by
  obtain ⟨trees, index, ending, stray⟩ := c
  obtain rfl : trees = group .parenthesis opened closed body :: ts := h
  rw [setOperand]

theorem setOperand_eq (h : ∀ opened closed body ts,
    c.trees ≠ group .parenthesis opened closed body :: ts) : c.setOperand = c.setElement := by
  rw [setOperand]
  split
  · next heq => exact absurd heq (h _ _ _ _)
  · rfl

namespace Alike

/-- Behind a group in parentheses that was read to its end. -/
theorem behind_group {opened closed : Position} {body body' ts us : List TokenTree}
    (h : c.Alike m n c') (opened' closed' : Position)
    (htrees : c.trees = group .parenthesis opened closed body :: ts)
    (hbody : TokenTree.Alike body body') (hts : TokenTree.Alike ts us) {d d' : Cursor}
    (hd : d.Alike m n d') (hpast : (c.inside body closed).Past d) (hend : d.trees.isEmpty = true) :
    let width := (group .parenthesis opened closed body).width
    let width' := (group .parenthesis opened' closed' body').width
    c.index + width - 1 + m = c'.index + width' - 1 + n ∧
      Alike m n { c.behind ts width with stray := d.stray }
        { c'.behind us width' with stray := d'.stray } ∧
      c.Past { c.behind ts width with stray := d.stray } := by
  have hindex := h.index
  simp only [TokenTree.width_parenthesis, hbody.widths_eq]
  refine ⟨by omega, ⟨hts, ?_, hd.stray⟩, fun hstray => ?_⟩
  · simp only [Cursor.behind]
    omega
  · obtain ⟨hnone, hclean⟩ := hpast hstray
    refine ⟨hnone, fun hrest => ?_⟩
    rw [List.isEmpty_iff.mp hend] at hclean
    rw [htrees]
    exact hrest.parenthesis (hclean .nil) _ _

mutual
theorem alts {c c' : Cursor} (h : c.Alike m n c') :
    Agrees m n Alt.movedAll c c.alts c'.alts := by
  rw [Cursor.alts, Cursor.alts]
  refine (alt h).bind ?_
  rintro alt d hd alt' d' hd' halt halike
  dsimp only
  have hlast : Alt.movedAll m [alt] = Alt.movedAll n [alt'] := congrArg (List.cons · []) halt
  rw [halike.atPunct_eq]
  by_cases hbars : d'.atPunct "||" = true
  · rw [if_pos hbars, if_pos hbars]
    exact .ok hlast halike (.refl d)
  · rw [if_neg hbars, if_neg hbars]
    rcases halike.punct? '|' (by decide) with ⟨hnone, hnone'⟩ |
      ⟨_, e, he, _, e', he', hread, hread', -, halike', hpast⟩
    · rw [hnone, hnone']
      exact .ok hlast halike (.refl d)
    · rw [hread, hread']
      dsimp only
      refine ((alts halike').past hpast).bind ?_
      rintro rest f hf rest' f' hf' hrest halike''
      exact .ok (congrArg₂ (· :: ·) halt hrest) halike'' (.refl f)
termination_by 5 * c.size + 4

theorem alt {c c' : Cursor} (h : c.Alike m n c') : Agrees m n Alt.moved c c.alt c'.alt := by
  rw [Cursor.alt, Cursor.alt]
  refine h.options.bind ?_
  rintro options d hd options' d' hd' hoptions halike
  refine (elements halike).bind ?_
  rintro elements e he elements' e' he' helements halike
  refine halike.commandList.bind ?_
  rintro commands f hf commands' f' hf' hcommands halike
  refine halike.altLabel.bind ?_
  rintro label g hg label' g' hg' hlabel halike
  refine .ok ?_ halike (.refl g)
  rw [Element.movedAll_eq_map, Element.movedAll_eq_map] at helements hcommands
  rw [moved_altOf, moved_altOf, List.map_append, List.map_append, h.index, hoptions, helements,
    hcommands]
  exact congrArg _ hlabel
termination_by 5 * c.size + 3

theorem elements {c c' : Cursor} (h : c.Alike m n c') :
    Agrees m n Element.movedAll c c.elements c'.elements := by
  rw [Cursor.elements, Cursor.elements, h.atAltEnd_eq]
  split
  · exact .ok rfl h (.refl c)
  · refine (element h).bind ?_
    rintro element d hd element' d' hd' helement halike
    dsimp only
    refine (elements halike).bind ?_
    rintro rest e he rest' e' he' hrest halike'
    exact .ok (congrArg₂ (· :: ·) helement hrest) halike' (.refl e)
termination_by 5 * c.size + 2

theorem element {c c' : Cursor} (h : c.Alike m n c') :
    Agrees m n Element.moved c c.element c'.element := by
  rw [Cursor.element, Cursor.element]
  refine h.elementLabel.bind ?_
  rintro label d hd label' d' hd' hlabel halike
  dsimp only
  refine (atom halike).bind ?_
  rintro bare e he bare' e' he' hbare halike'
  have hlabeled : (match label with | some label => label.onto bare | none => bare).moved m =
      (match label' with | some label => label.onto bare' | none => bare').moved n := by
    cases label <;> cases label' <;> simp_all [moved_onto]
  refine (halike'.suffixed hlabeled).bind ?_
  rintro element f hf element' f' hf' helement halike''
  exact .ok helement halike'' (.refl f)
termination_by 5 * c.size + 1

theorem atom {c c' : Cursor} (h : c.Alike m n c') :
    Agrees m n Element.moved c c.atom c'.atom := by
  have hsymbol : Agrees m n Element.moved c c.symbol c'.symbol := by
    unfold Cursor.symbol
    rcases h.punct? '~' (by decide) with ⟨hnone, hnone'⟩ |
      ⟨tilde, d, hd, tilde', d', hd', hread, hread', htilde, halike, hpast⟩
    · rw [hnone, hnone']
      dsimp only
      rw [h.atPunct_eq, h.atPunct_eq, h.atLiteral_eq]
      split
      · exact h.wildcard
      split
      · exact h.quotationOrRange
      · exact h.reference
    · rw [hread, hread']
      dsimp only
      refine ((setOperand halike).past hpast).bind ?_
      rintro operand e he operand' e' he' hoperand halike'
      have hstop : operand.extent.stop + m = operand'.extent.stop + n :=
        congrArg (·.stop) (Element.extent_eq_of_moved hoperand)
      exact .ok (by simp only [Element.moved, Extent.shift, hoperand, htilde, hstop]) halike'
        (.refl e)
  have htrees := h.trees
  generalize hc : c.trees = ts at htrees
  generalize hc' : c'.trees = us at htrees
  cases htrees with
  | nil =>
      rw [atom_nil hc, atom_nil hc']
      exact hsymbol
  | ident | literal | punct =>
      rw [atom_leaf hc, atom_leaf hc']
      exact hsymbol
  | @group delimiter opened closed opened' closed' body body' ts us hbody _ hts =>
      cases delimiter with
      | brace =>
          rw [atom_brace hc, atom_brace hc']
          exact h.embedded
      | bracket =>
          rw [atom_bracket hc]
          exact .error
      | parenthesis =>
          have := size_inside_lt hc
          rw [atom_parenthesis hc, atom_parenthesis hc']
          refine (alts (h.inside hbody closed closed')).bind_elsewhere ?_
          rintro alts d hd alts' d' hd' halts halike hpast
          dsimp only
          rw [halike.isEmpty_eq]
          split
          · exact .error
          · next hend =>
              rw [← halike.isEmpty_eq, Bool.not_eq_true, Bool.not_eq_false'] at hend
              obtain ⟨hindex, halike', hpast'⟩ := h.behind_group opened' closed' hc
                hbody hts halike hpast hend
              refine .ok ?_ halike' hpast'
              simp only [Element.moved, Extent.shift, halts, h.index, hindex]
              rfl
termination_by 5 * c.size

theorem setOperand {c c' : Cursor} (h : c.Alike m n c') :
    Agrees m n Element.moved c c.setOperand c'.setOperand := by
  have htrees := h.trees
  by_cases hgroup : ∃ opened closed body ts, c.trees = group .parenthesis opened closed body :: ts
  · obtain ⟨opened, closed, body, ts, hc⟩ := hgroup
    rw [hc] at htrees
    generalize hc' : c'.trees = us at htrees
    cases htrees with
    | @group _ _ _ opened' closed' _ body' _ us hbody _ hts =>
        have := size_inside_lt hc
        rw [setOperand_parenthesis hc, setOperand_parenthesis hc']
        refine (setElements (h.inside hbody closed closed')).bind_elsewhere ?_
        rintro elements d hd elements' d' hd' helements halike hpast
        dsimp only
        rw [halike.isEmpty_eq]
        split
        · exact .error
        · next hend =>
            rw [← halike.isEmpty_eq, Bool.not_eq_true, Bool.not_eq_false'] at hend
            obtain ⟨hindex, halike', hpast'⟩ := h.behind_group opened' closed' hc
              hbody hts halike hpast hend
            refine .ok ?_ halike' hpast'
            simp only [Element.moved, Extent.shift, helements, h.index, hindex]
  · rw [setOperand_eq fun opened closed body ts hc => hgroup ⟨opened, closed, body, ts, hc⟩,
      setOperand_eq fun opened closed body ts hc' => ?_]
    · exact setElement h
    · rw [hc'] at htrees
      generalize hc : c.trees = us at htrees
      cases htrees with
      | group => exact hgroup ⟨_, _, _, _, hc⟩
termination_by 5 * c.size + 2

theorem setElements {c c' : Cursor} (h : c.Alike m n c') :
    Agrees m n Element.movedAll c c.setElements c'.setElements := by
  rw [Cursor.setElements, Cursor.setElements]
  refine (setElement h).bind ?_
  rintro element d hd element' d' hd' helement halike
  dsimp only
  rcases halike.punct? '|' (by decide) with ⟨hnone, hnone'⟩ |
    ⟨_, e, he, _, e', he', hread, hread', -, halike', hpast⟩
  · rw [hnone, hnone']
    exact .ok (congrArg (List.cons · []) helement) halike (.refl d)
  · rw [hread, hread']
    dsimp only
    refine ((setElements halike').past hpast).bind ?_
    rintro rest f hf rest' f' hf' hrest halike''
    exact .ok (congrArg₂ (· :: ·) helement hrest) halike'' (.refl f)
termination_by 5 * c.size + 2

theorem setElement {c c' : Cursor} (h : c.Alike m n c') :
    Agrees m n Element.moved c c.setElement c'.setElement := by
  rw [Cursor.setElement, Cursor.setElement]
  refine (atom h).bind ?_
  rintro element d hd element' d' hd' helement halike
  dsimp only
  rw [← isNegatable_moved m element, helement, isNegatable_moved]
  split
  · exact .ok helement halike (.refl d)
  · exact .error
termination_by 5 * c.size + 1
end

/-! ## Rules -/

theorem settings {c c' : Cursor} {entries : List (String × String)} (h : c.Alike m n c')
    (hread : c.settings = .ok entries) : c'.settings = .ok entries := by
  rw [Cursor.settings] at hread ⊢
  rw [← h.isEmpty_eq]
  split at hread
  · next hempty => rwa [if_pos hempty]
  · next hempty =>
      rw [if_neg hempty]
      obtain ⟨⟨⟨name, i⟩, ⟨d, hd⟩⟩, hname, hread⟩ := ok_of_bind hread
      obtain ⟨⟨_, i'⟩, d', hd', hname', heq, halike, -⟩ := h.ident _ _ _ hname
      obtain ⟨rfl, -⟩ := Prod.mk.inj heq
      obtain ⟨⟨sign, ⟨e, he⟩⟩, hsign, hread⟩ := ok_of_bind hread
      obtain ⟨sign', e', he', hsign', -, halike, -⟩ := halike.punct (by decide) _ _ _ hsign
      obtain ⟨⟨value, ⟨f, hf⟩⟩, hvalue, hread⟩ := ok_of_bind hread
      obtain ⟨_, f', hf', hvalue', rfl, halike, -⟩ := halike.optionValue _ _ _ hvalue
      obtain ⟨⟨semicolon, ⟨g, hg⟩⟩, hsemicolon, hread⟩ := ok_of_bind hread
      obtain ⟨semicolon', g', hg', hsemicolon', -, halike, -⟩ :=
        halike.punct (by decide) _ _ _ hsemicolon
      obtain ⟨rest, hrest, hread⟩ := ok_of_bind hread
      have : g.size < c.size := by omega
      rw [hname']
      simp only [bind, Except.bind, hsign', hvalue', hsemicolon', halike.settings hrest]
      exact hread
termination_by c.size

/-- A section of braces whose body is read alike. -/
theorem braced {α : Type} (h : c.Alike m n c') (keyword : String)
    {body : Cursor → Except SyntaxError α}
    (hbody : ∀ {d d' : Cursor} {a : α}, d.Alike m n d' → body d = .ok a → body d' = .ok a) :
    Agrees m n (fun _ a => a) c (c.braced keyword body) (c'.braced keyword body) := by
  unfold Cursor.braced
  refine (h.word keyword).bind ?_
  rintro _ ⟨trees, index, ending, stray⟩ hd _ ⟨trees', index', ending', stray'⟩ hd' - halike
  have htrees : TokenTree.Alike trees trees' := halike.trees
  cases htrees with
  | @group delimiter opened closed opened' closed' inner inner' ts us hinner _ hts =>
      cases delimiter with
      | brace =>
          dsimp only
          cases hread : body (Cursor.inside ⟨group .brace opened closed inner :: ts, index, ending,
            stray⟩ inner closed) with
          | error => exact .error
          | ok value =>
              rw [hbody (halike.inside hinner closed closed') hread]
              exact .ok rfl (halike.behind hts 1) (past_behind (.code · (by decide) _ _ _) 1)
      | _ => exact .error
  | _ => exact .error

theorem clause (h : c.Alike m n c') (keyword : String) :
    Agrees m n (fun offset code => code.map (Snippet.shift · offset)) c (c.clause keyword)
      (c'.clause keyword) := by
  unfold Cursor.clause
  rw [h.atWord_eq]
  split
  · refine (h.word keyword).bind ?_
    rintro _ d hd _ d' hd' - halike
    refine halike.arguments.bind ?_
    rintro code e he code' e' he' hcode halike'
    exact .ok (congrArg some hcode) halike' (.refl e)
  · exact .ok rfl h (.refl c)

theorem fragmentMark (h : c.Alike m n c') :
    Agrees m n (fun _ (a : Bool) => a) c c.fragmentMark c'.fragmentMark := by
  unfold Cursor.fragmentMark
  rw [h.atWord_eq, h.second.atIdent_eq]
  split
  · refine (h.word "fragment").bind ?_
    rintro _ d hd _ d' hd' - halike
    exact .ok rfl halike (.refl d)
  · exact .ok rfl h (.refl c)

theorem ruleArguments (h : c.Alike m n c') :
    Agrees m n (fun offset code => code.map (Snippet.shift · offset)) c c.ruleArguments
      c'.ruleArguments := by
  unfold Cursor.ruleArguments
  rw [h.atGroup_eq]
  split
  · refine h.arguments.bind ?_
    rintro code d hd code' d' hd' hcode halike
    exact .ok (congrArg some hcode) halike (.refl d)
  · exact .ok rfl h (.refl c)

theorem ruleSettings (h : c.Alike m n c') :
    Agrees m n (fun _ (a : Unit) => a) c c.ruleSettings c'.ruleSettings := by
  unfold Cursor.ruleSettings
  have hbraced : c.atBraced "options" = c'.atBraced "options" := by
    simp only [atBraced, h.atWord_eq, h.second.atGroup_eq]
  rw [hbraced]
  split
  · refine (h.braced "options" settings).bind ?_
    rintro _ d hd _ d' hd' - halike
    exact .ok rfl halike (.refl d)
  · exact .ok rfl h (.refl c)

theorem rule (h : c.Alike m n c') :
    Agrees m n (fun offset rule => rule.moved offset) c c.rule c'.rule := by
  unfold Cursor.rule
  refine h.fragmentMark.bind ?_
  rintro isFragment d hd isFragment' d' hd' rfl halike
  refine halike.ident.bind ?_
  rintro ⟨name, nameToken⟩ e he ⟨name', nameToken'⟩ e' he' heq halike
  obtain ⟨rfl, hname⟩ := Prod.mk.inj heq
  refine halike.ruleArguments.bind ?_
  rintro args f hf args' f' hf' hargs halike
  refine (halike.clause "returns").bind ?_
  rintro returns g hg returns' g' hg' hreturns halike
  refine (halike.clause "locals").bind ?_
  rintro _ i hi _ i' hi' - halike
  refine halike.ruleSettings.bind ?_
  rintro _ j hj _ j' hj' - halike
  refine (halike.punct (by decide)).bind ?_
  rintro colon k hk colon' k' hk' hcolon halike
  refine halike.alts.bind ?_
  rintro alts l hl alts' l' hl' halts halike
  refine (halike.punct (by decide)).bind ?_
  rintro semicolon o ho semicolon' o' ho' hsemicolon halike
  refine .ok ?_ halike (.refl o)
  simp only [RuleDef.moved, Extent.shift, hname, hargs, hreturns, halts, h.index, hsemicolon,
    ← Alt.start_movedAll, ← Alt.stop_movedAll, hcolon]

end Alike

end Cursor

/-! ## Reading the text of a rule -/

namespace RuleDef

/-- A rule begins with a word. -/
theorem Spelled.exists_word {rule : RuleDef} {i : Nat} {ts : List TokenTree}
    (h : rule.Spelled i ts) : ∃ word p rest, ts = leaf (.ident word) p :: rest := by
  obtain ⟨-, -, mark, heading, body, p, joint, joint', q, r, rfl, hmark, -⟩ := h
  generalize rule.isFragment = isFragment at hmark
  cases hmark with
  | plain => exact ⟨_, _, _, rfl⟩
  | marked => exact ⟨_, _, _, rfl⟩

/-- Reading the text of the tokens of a rule gives the rule again. Its token indexes are moved by the
distance between the tables it is read into. -/
theorem parse_text {name source : String} {table kept : TokenTable} {rule : RuleDef}
    (h : RuleDef.parse name source table = (.ok rule, kept)) (name' : String) (table' : TokenTable) :
    ∃ again kept', RuleDef.parse name' (kept.text rule.extent.start rule.extent.stop) table' =
      (.ok again, kept') ∧ again.moved table.size = rule.moved table'.size := by
  obtain ⟨trees, d, hd, hparse, hrule, hstray, hend, rfl⟩ := parse_eq_ok.mp h
  -- the trees of the rule, and no quotation mark among them
  obtain ⟨used, htakes, hspelled⟩ := Cursor.takes_rule hrule
  obtain rfl : trees = used := by
    have htrees := htakes.1
    rw [hend, List.append_nil] at htrees
    exact htrees
  have hself : Cursor.Alike 0 0 (Cursor.atStart trees table.size) (Cursor.atStart trees table.size) :=
    ⟨.refl trees, rfl, rfl⟩
  obtain ⟨-, -, -, -, -, -, hpast⟩ := hself.rule rule d hd hrule
  have hclean : Clean trees := (hpast hstray).2 (hend ▸ .nil)
  obtain ⟨word, p, ts, rfl⟩ := hspelled.exists_word
  obtain ⟨hword, us, hagain, halike⟩ := TokenTree.exists_parse_spread hparse hclean.quoteFree.2
  -- their text
  have htext : (rule.relocateCopies (table.addSource name (leaf (.ident word) p :: ts))).text
      rule.extent.start rule.extent.stop = word ++ TokenTree.spread false ts := by
    have hstop : table.size + TokenTree.widths (leaf (.ident word) p :: ts) - 1 =
        table.size + TokenTree.widths ts := by
      rw [TokenTree.widths_cons, TokenTree.width_leaf]
      omega
    rw [hspelled.1]
    show TokenTable.text _ table.size (table.size + _ - 1) = _
    rw [hstop]
    refine TokenTable.text_of_written hword (p := p) ?_
    rw [RuleDef.written_relocateCopies, TokenTable.written_addSource]
  -- reading again
  have hstart : Cursor.Alike table'.size table.size
      (Cursor.atStart (leaf (.ident word) p :: ts) table.size) (Cursor.atStart us table'.size) :=
    ⟨halike, Nat.add_comm .., rfl⟩
  obtain ⟨again, d', hd', hread, hmoved, hbehind, -⟩ := hstart.rule rule d hd hrule
  refine ⟨again, _, parse_eq_ok.mpr ⟨us, d', hd', ?_, hread, ?_, ?_, rfl⟩, hmoved.symm⟩
  · rw [htext]
    exact hagain
  · have hnone := hbehind.stray
    rw [hstray] at hnone
    exact Option.isNone_iff_eq_none.mp hnone.symm
  · have hnil := hbehind.isEmpty_eq
    rw [hend] at hnil
    exact List.isEmpty_iff.mp hnil.symm

/-- A rule behind the tokens of another, read again into an empty table: with joint punctuation, a
negative number, nested groups and code. -/
theorem parse_text_joint :
    ∃ (before kept kept' : TokenTable) (rule again : RuleDef),
      before.size = 4 ∧
      RuleDef.parse "r" "r[int n]: <assoc=right> l+=(A|~('x'..'z'|B))*? c<p=-3> \x7bn>0\x7d? #one | ;"
        before = (.ok rule, kept) ∧
      RuleDef.parse "again" (kept.text rule.extent.start rule.extent.stop) .empty =
        (.ok again, kept') ∧
      again.moved 4 = rule.moved 0 := by
  have hgood : ((RuleDef.parse "r"
      "r[int n]: <assoc=right> l+=(A|~('x'..'z'|B))*? c<p=-3> \x7bn>0\x7d? #one | ;"
      (RuleDef.parse "b" "b : C ;" .empty).2).1.toOption.isSome &&
        (RuleDef.parse "b" "b : C ;" .empty).2.size = 4) = true := by
    decide +kernel
  obtain ⟨hsome, hsize⟩ := (Bool.and_eq_true _ _).mp hgood
  obtain ⟨rule, hrule⟩ := Option.isSome_iff_exists.mp hsome
  have hrule := ok_of_toOption hrule
  generalize hread : RuleDef.parse "r" _ _ = read at hrule
  obtain ⟨_, kept⟩ := read
  obtain rfl : _ = Except.ok rule := hrule
  obtain ⟨again, kept', hagain, hmoved⟩ := parse_text hread "again" .empty
  rw [of_decide_eq_true hsize] at hmoved
  exact ⟨_, kept, kept', rule, again, of_decide_eq_true hsize, hread, hagain, hmoved⟩

end RuleDef

end GrammarCompiler
