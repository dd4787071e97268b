import GrammarCompiler.Proofs.Ast.Moved
import GrammarCompiler.Proofs.TokenTree.Places
import GrammarCompiler.Proofs.TokenTree.Replayed

/-!
# Readers do the same on trees alike

A reader that succeeds before some trees succeeds before trees alike, with the same result but for
the token indexes: they differ by as much as those of the two cursors (`Agrees`). Besides, a reader
passes no quotation mark that stands alone and no documentation comment (`Cursor.Past`).
-/

namespace GrammarCompiler

open Text (Position)
open TokenTree (leaf group tops AllQuoteFree Labelled quoteFree_ident quoteFree_literal
  quoteFree_punct)

variable {m n : Nat}

/-! ## What readers pass -/

namespace TokenTree

/-- Trees without a quotation mark that stands alone and without a `#` that has no name behind it. -/
structure Clean (ts : List TokenTree) : Prop where
  quoteFree : AllQuoteFree ts
  labelled : Labelled (tops ts)

namespace Clean

variable {ts : List TokenTree}

theorem nil : Clean [] := ⟨trivial, by rw [tops_nil]; exact .nil⟩

theorem ident (h : Clean ts) (text : String) (p : Position) :
    Clean (leaf (.ident text) p :: ts) :=
  ⟨⟨quoteFree_ident, h.quoteFree⟩, by rw [tops_cons, top_leaf]; exact .cons nofun h.labelled⟩

theorem literal (h : Clean ts) (text : String) (p : Position) :
    Clean (leaf (.literal text) p :: ts) :=
  ⟨⟨quoteFree_literal, h.quoteFree⟩, by rw [tops_cons, top_leaf]; exact .cons nofun h.labelled⟩

theorem punct (h : Clean ts) {c : Char} (hc : c ≠ '\'' ∧ c ≠ '#') (joint : Bool) (p : Position) :
    Clean (leaf (.punct c joint) p :: ts) := by
  refine ⟨⟨quoteFree_punct hc.1, h.quoteFree⟩, ?_⟩
  rw [tops_cons, top_leaf]
  exact .cons (fun _ heq => hc.2 (Leaf.punct.inj (Lexeme.leaf.inj heq)).1) h.labelled

theorem label (h : Clean ts) (joint : Bool) (text : String) (p q : Position) :
    Clean (leaf (.punct '#' joint) p :: leaf (.ident text) q :: ts) := by
  refine ⟨⟨quoteFree_punct (by decide), quoteFree_ident, h.quoteFree⟩, ?_⟩
  rw [tops_cons, tops_cons, top_leaf, top_leaf]
  exact .label joint text p q h.labelled

theorem code (h : Clean ts) {delimiter : Delimiter} (hdelimiter : delimiter ≠ .parenthesis)
    (opened closed : Position) (body : List TokenTree) :
    Clean (group delimiter opened closed body :: ts) := by
  refine ⟨⟨?_, h.quoteFree⟩, ?_⟩
  · cases delimiter with
    | parenthesis => exact absurd rfl hdelimiter
    | _ => trivial
  · rw [tops_cons, top_of_ne hdelimiter]
    exact .cons nofun h.labelled

theorem parenthesis (h : Clean ts) {body : List TokenTree} (hbody : Clean body)
    (opened closed : Position) : Clean (group .parenthesis opened closed body :: ts) := by
  refine ⟨⟨?_, h.quoteFree⟩, ?_⟩
  · rw [QuoteFree]
    exact hbody.quoteFree
  · rw [tops_cons, top_parenthesis, List.cons_append, List.append_assoc]
    exact .cons (by simp) (hbody.labelled.append (.cons (by simp) h.labelled))

end Clean

end TokenTree

open TokenTree (Clean)

namespace Cursor

/-- Two cursors before trees alike, whose indexes are the same once those of one are moved by `m` and
those of the other by `n`. -/
structure Alike (m n : Nat) (c c' : Cursor) : Prop where
  trees : TokenTree.Alike c.trees c'.trees
  index : c.index + m = c'.index + n
  stray : c.stray.isNone = c'.stray.isNone

/-- A cursor behind another: if nothing was left over on the way, no quotation mark stood alone there
and every `#` there had a name behind it. -/
def Past (c d : Cursor) : Prop :=
  d.stray = none → c.stray = none ∧ (Clean d.trees → Clean c.trees)

theorem Past.refl (c : Cursor) : c.Past c := fun h => ⟨h, id⟩

theorem Past.trans {c d e : Cursor} (h : c.Past d) (h' : d.Past e) : c.Past e := by
  intro hstray
  obtain ⟨hd, hclean'⟩ := h' hstray
  obtain ⟨hc, hclean⟩ := h hd
  exact ⟨hc, hclean ∘ hclean'⟩

theorem past_behind {c : Cursor} {rest : List TokenTree} (h : Clean rest → Clean c.trees)
    (width : Nat) : c.Past (c.behind rest width) :=
  fun hstray => ⟨hstray, h⟩

end Cursor

/-- If one reader succeeds, the other does, with the same result once the indexes of the one are
moved by `m` and those of the other by `n`, and both go on before trees alike. -/
def Agrees {α : Type} (m n : Nat) (move : Nat → α → α) (c : Cursor) {P P' : Cursor → Prop}
    (x : Except SyntaxError (α × { d // P d })) (x' : Except SyntaxError (α × { d // P' d })) :
    Prop :=
  ∀ a d hd, x = .ok (a, ⟨d, hd⟩) → ∃ a' d' hd', x' = .ok (a', ⟨d', hd'⟩) ∧
    move m a = move n a' ∧ d.Alike m n d' ∧ c.Past d

namespace Agrees

variable {α β : Type} {move : Nat → α → α} {move' : Nat → β → β} {c : Cursor}
  {P P' Q Q' : Cursor → Prop}

theorem ok {a a' : α} {d d' : Cursor} {hd : P d} {hd' : P' d'} (ha : move m a = move n a')
    (h : d.Alike m n d') (hpast : c.Past d) :
    Agrees m n move c (.ok (a, (⟨d, hd⟩ : { d // P d })))
      (.ok (a', (⟨d', hd'⟩ : { d // P' d }))) := by
  intro b e he heq
  cases heq
  exact ⟨a', d', hd', rfl, ha, h, hpast⟩

theorem error {e : SyntaxError} {x' : Except SyntaxError (α × { d // P' d })} :
    Agrees m n move c (P := P) (.error e) x' := by
  intro _ _ _ heq
  cases heq

/-- Reading from further on. -/
theorem past {d : Cursor} {x : Except SyntaxError (α × { d // P d })}
    {x' : Except SyntaxError (α × { d // P' d })} (h : Agrees m n move d x x') (hpast : c.Past d) :
    Agrees m n move c x x' := by
  intro a e he heq
  obtain ⟨a', e', he', hread, ha, halike, hpast'⟩ := h a e he heq
  exact ⟨a', e', he', hread, ha, halike, hpast.trans hpast'⟩

/-- Reading on somewhere else, as behind the group that was read. -/
theorem bind_elsewhere {b : Cursor} {x : Except SyntaxError (α × { d // P d })}
    {x' : Except SyntaxError (α × { d // P' d })}
    {f : α × { d // P d } → Except SyntaxError (β × { d // Q d })}
    {f' : α × { d // P' d } → Except SyntaxError (β × { d // Q' d })}
    (h : Agrees m n move b x x')
    (hnext : ∀ a d hd a' d' hd', move m a = move n a' → d.Alike m n d' → b.Past d →
      Agrees m n move' c (f (a, ⟨d, hd⟩)) (f' (a', ⟨d', hd'⟩))) :
    Agrees m n move' c (x >>= f) (x' >>= f') := by
  cases x with
  | error e => exact error
  | ok r =>
      obtain ⟨a, d, hd⟩ := r
      obtain ⟨a', d', hd', rfl, ha, halike, hpast⟩ := h a d hd rfl
      exact hnext a d hd a' d' hd' ha halike hpast

/-- Reading on. -/
theorem bind {x : Except SyntaxError (α × { d // P d })}
    {x' : Except SyntaxError (α × { d // P' d })}
    {f : α × { d // P d } → Except SyntaxError (β × { d // Q d })}
    {f' : α × { d // P' d } → Except SyntaxError (β × { d // Q' d })}
    (h : Agrees m n move c x x')
    (hnext : ∀ a d hd a' d' hd', move m a = move n a' → d.Alike m n d' →
      Agrees m n move' d (f (a, ⟨d, hd⟩)) (f' (a', ⟨d', hd'⟩))) :
    Agrees m n move' c (x >>= f) (x' >>= f') :=
  h.bind_elsewhere fun a d hd a' d' hd' ha halike hpast =>
    (hnext a d hd a' d' hd' ha halike).past hpast

end Agrees

namespace Cursor

variable {c c' : Cursor}

/-! ## Looking ahead -/

namespace Alike

theorem behind {rest rest' : List TokenTree} (h : c.Alike m n c')
    (hrest : TokenTree.Alike rest rest') (width : Nat) :
    (c.behind rest width).Alike m n (c'.behind rest' width) :=
  ⟨hrest, by have := h.index; simp only [Cursor.behind]; omega, h.stray⟩

theorem isEmpty_eq (h : c.Alike m n c') : c.trees.isEmpty = c'.trees.isEmpty := by
  have htrees := h.trees
  generalize c.trees = ts at htrees ⊢
  generalize c'.trees = us at htrees ⊢
  cases htrees <;> rfl

theorem atIdent_eq (h : c.Alike m n c') : c.atIdent = c'.atIdent := by
  have htrees := h.trees
  unfold atIdent
  generalize c.trees = ts at htrees ⊢
  generalize c'.trees = us at htrees ⊢
  cases htrees <;> rfl

theorem atWord_eq (h : c.Alike m n c') (word : String) : c.atWord word = c'.atWord word := by
  have htrees := h.trees
  unfold atWord
  generalize c.trees = ts at htrees ⊢
  generalize c'.trees = us at htrees ⊢
  cases htrees <;> rfl

theorem atGroup_eq (h : c.Alike m n c') (delimiter : Delimiter) :
    c.atGroup delimiter = c'.atGroup delimiter := by
  have htrees := h.trees
  unfold atGroup
  generalize c.trees = ts at htrees ⊢
  generalize c'.trees = us at htrees ⊢
  cases htrees <;> rfl

theorem atLiteral_eq (h : c.Alike m n c') : c.atLiteral = c'.atLiteral := by
  have htrees := h.trees
  unfold atLiteral
  generalize c.trees = ts at htrees ⊢
  generalize c'.trees = us at htrees ⊢
  cases htrees with
  | @punct d joint joint' p q _ _ _ hts =>
      by_cases hd : d = '-'
      · subst hd
        cases hts <;> rfl
      · split <;> simp_all
  | _ => rfl

theorem spells_eq {ts us : List TokenTree} (h : TokenTree.Alike ts us) (cs : List Char) :
    spells cs ts = spells cs us := by
  induction cs generalizing ts us with
  | nil => rfl
  | cons c cs ih =>
      cases h with
      | nil => cases cs <;> rfl
      | ident | literal | group => cases cs <;> rfl
      | @punct d joint joint' p q ts us hjoint hts =>
          cases cs with
          | nil => rfl
          | cons c' cs =>
              have hrest := ih hts
              simp only [spells]
              rw [hrest]
              -- only punctuation can be the rest of what is spelled
              cases hstarts : TokenTree.startsWithPunct ts with
              | true => rw [hjoint hstarts]
              | false =>
                  have hnone : spells (c' :: cs) us = false := by
                    rw [hts.startsWithPunct_eq] at hstarts
                    cases us with
                    | nil => cases cs <;> rfl
                    | cons u us =>
                        cases u with
                        | group => cases cs <;> rfl
                        | leaf token =>
                            cases token with
                            | punct => cases hstarts
                            | _ => cases cs <;> rfl
                  rw [hnone, Bool.and_false, Bool.and_false]

theorem atPunct_eq (h : c.Alike m n c') (text : String) : c.atPunct text = c'.atPunct text :=
  spells_eq h.trees text.toList

theorem second (h : c.Alike m n c') : c.second.Alike m n c'.second := by
  obtain ⟨trees, index, ending, stray⟩ := c
  obtain ⟨trees', index', ending', stray'⟩ := c'
  have htrees : TokenTree.Alike trees trees' := h.trees
  cases htrees with
  | nil => exact h
  | ident _ _ hts => exact h.behind hts 1
  | literal _ _ hts => exact h.behind hts 1
  | punct _ _ _ hts => exact h.behind hts 1
  | @group delimiter _ _ _ _ body body' _ _ hbody _ hts =>
      have hwidth : ∀ p q p' q', (group delimiter p q body).width =
          (group delimiter p' q' body').width := by
        intro p q p' q'
        cases delimiter <;> simp [TokenTree.width, hbody.widths_eq]
      unfold Cursor.second
      dsimp only
      rw [hwidth]
      exact h.behind hts _

end Alike

/-! ## Leaves and groups -/

namespace Alike

theorem ident (h : c.Alike m n c') :
    Agrees m n (fun offset (a : String × Nat) => (a.1, a.2 + offset)) c c.ident c'.ident := by
  obtain ⟨trees, index, ending, stray⟩ := c
  obtain ⟨trees', index', ending', stray'⟩ := c'
  have htrees : TokenTree.Alike trees trees' := h.trees
  cases htrees with
  | @ident text _ _ _ _ hts =>
      exact .ok (congrArg (text, ·) h.index) (h.behind hts 1) (past_behind (.ident · _ _) 1)
  | _ => exact .error

theorem word (h : c.Alike m n c') (text : String) :
    Agrees m n (fun _ (a : Unit) => a) c (c.word text) (c'.word text) := by
  unfold Cursor.word
  rw [h.atWord_eq]
  cases c'.atWord text with
  | false => exact .error
  | true =>
      have hident := h.ident
      cases hread : c.ident with
      | error => exact .error
      | ok r =>
          obtain ⟨a, d, hd⟩ := r
          obtain ⟨a', d', hd', hread', -, hd'', hpast⟩ := hident a d hd hread
          rw [hread']
          exact .ok rfl hd'' hpast

theorem punct (h : c.Alike m n c') {char : Char} (hchar : char ≠ '\'' ∧ char ≠ '#') :
    Agrees m n (fun offset i => i + offset) c (c.punct char) (c'.punct char) := by
  obtain ⟨trees, index, ending, stray⟩ := c
  obtain ⟨trees', index', ending', stray'⟩ := c'
  have htrees : TokenTree.Alike trees trees' := h.trees
  cases htrees with
  | @punct d joint joint' p q ts us _ hts =>
      unfold Cursor.punct
      dsimp only
      by_cases hd : d = char
      · rw [if_pos hd, if_pos hd]
        exact .ok h.index (h.behind hts 1) (past_behind (.punct · (hd ▸ hchar) _ _) 1)
      · rw [if_neg hd]
        exact .error
  | _ => exact .error

/-- Punctuation that may be missing. -/
theorem punct? (h : c.Alike m n c') (char : Char) (hchar : char ≠ '\'' ∧ char ≠ '#') :
    (c.punct? char = none ∧ c'.punct? char = none) ∨
      ∃ i d hd i' d' hd', c.punct? char = some (i, ⟨d, hd⟩) ∧ c'.punct? char = some (i', ⟨d', hd'⟩) ∧
        i + m = i' + n ∧ d.Alike m n d' ∧ c.Past d := by
  obtain ⟨trees, index, ending, stray⟩ := c
  obtain ⟨trees', index', ending', stray'⟩ := c'
  have htrees : TokenTree.Alike trees trees' := h.trees
  cases htrees with
  | @punct d joint joint' p q ts us _ hts =>
      unfold Cursor.punct? Cursor.punct
      dsimp only
      by_cases hd : d = char
      · rw [if_pos hd, if_pos hd]
        exact .inr ⟨_, _, _, _, _, _, rfl, rfl, h.index, h.behind hts 1,
          past_behind (.punct · (hd ▸ hchar) _ _) 1⟩
      · rw [if_neg hd, if_neg hd]
        exact .inl ⟨rfl, rfl⟩
  | _ => exact .inl ⟨rfl, rfl⟩

/-- Two punctuation characters that may be missing. -/
theorem pair? (h : c.Alike m n c') (first second : Char)
    (hfirst : first ≠ '\'' ∧ first ≠ '#') (hsecond : second ≠ '\'' ∧ second ≠ '#') :
    (c.pair? first second = none ∧ c'.pair? first second = none) ∨
      ∃ i d hd i' d' hd', c.pair? first second = some (i, ⟨d, hd⟩) ∧
        c'.pair? first second = some (i', ⟨d', hd'⟩) ∧ i + m = i' + n ∧ d.Alike m n d' ∧
        c.Past d := by
  unfold Cursor.pair?
  rw [h.atPunct_eq]
  split
  · rcases h.punct? first hfirst with ⟨hnone, hnone'⟩ |
      ⟨i, d, hd, i', d', hd', hread, hread', -, halike, hpast⟩
    · rw [hnone, hnone']
      exact .inl ⟨rfl, rfl⟩
    · rw [hread, hread']
      dsimp only [Option.bind_eq_bind, Option.bind_some]
      rcases halike.punct? second hsecond with ⟨hnone, hnone'⟩ |
        ⟨j, e, he, j', e', he', hread, hread', hj, halike', hpast'⟩
      · rw [hnone, hnone']
        exact .inl ⟨rfl, rfl⟩
      · rw [hread, hread']
        exact .inr ⟨j, e, Nat.lt_trans he hd, j', e', Nat.lt_trans he' hd', rfl, rfl, hj, halike',
          hpast.trans hpast'⟩
  · exact .inl ⟨rfl, rfl⟩

theorem literal (h : c.Alike m n c') :
    Agrees m n (fun offset token => token.moved offset) c c.literal c'.literal := by
  obtain ⟨trees, index, ending, stray⟩ := c
  obtain ⟨trees', index', ending', stray'⟩ := c'
  have htrees : TokenTree.Alike trees trees' := h.trees
  have hmoved : ∀ text value, (LiteralToken.mk text index value).moved m =
      (LiteralToken.mk text index' value).moved n :=
    fun text value => congrArg (LiteralToken.mk text · value) h.index
  cases htrees with
  | literal _ _ hts => exact .ok (hmoved ..) (h.behind hts 1) (past_behind (.literal · _ _) 1)
  | @ident text _ _ _ _ hts =>
      unfold Cursor.literal
      dsimp only
      split
      · exact .ok (hmoved ..) (h.behind hts 1) (past_behind (.ident · _ _) 1)
      · exact .error
  | @punct d joint joint' p q ts us _ hts =>
      by_cases hd : d = '-'
      · subst hd
        cases hts with
        | @literal text r s ts us hts =>
            show Agrees m n _ _ (if Literal.isNumber text then _ else _)
              (if Literal.isNumber text then _ else _)
            split
            · exact .ok (hmoved ..) (h.behind hts 2)
                (past_behind (fun hrest => (hrest.literal _ _).punct (by decide) _ _) 2)
            · exact .error
        | _ => exact .error
      · unfold Cursor.literal
        split
        · next heq => cases heq
        · next heq => cases heq
        · next heq =>
            cases heq
            exact absurd rfl hd
        · exact .error
  | _ => exact .error

theorem opaqueGroup (h : c.Alike m n c') {delimiter : Delimiter}
    (hdelimiter : delimiter ≠ .parenthesis) (what : Expectation) :
    Agrees m n (fun offset (a : Nat × String) => (a.1 + offset, a.2)) c
      (c.opaqueGroup delimiter what) (c'.opaqueGroup delimiter what) := by
  obtain ⟨trees, index, ending, stray⟩ := c
  obtain ⟨trees', index', ending', stray'⟩ := c'
  have htrees : TokenTree.Alike trees trees' := h.trees
  cases htrees with
  | @group d _ _ _ _ body body' _ _ _ hprint hts =>
      unfold Cursor.opaqueGroup
      dsimp only
      by_cases hd : d = delimiter
      · subst hd
        rw [if_pos rfl, if_pos rfl]
        exact .ok (Prod.ext h.index (hprint hdelimiter)) (h.behind hts 1)
          (past_behind (.code · hdelimiter _ _ _) 1)
      · rw [if_neg hd]
        exact .error
  | _ => exact .error

theorem arguments (h : c.Alike m n c') :
    Agrees m n (fun offset code => code.shift offset) c c.arguments c'.arguments := by
  unfold Cursor.arguments
  refine (h.opaqueGroup (by decide) _).bind ?_
  rintro ⟨i, text⟩ d hd ⟨i', text'⟩ d' hd' heq halike
  obtain ⟨hi, rfl⟩ := Prod.mk.inj heq
  exact .ok (by simp [Snippet.shift, Extent.shift, Extent.single, hi, Options.shift, Options.none])
    halike (.refl d)

/-! ## Options -/

theorem optionValue (h : c.Alike m n c') :
    Agrees m n (fun _ (a : String) => a) c c.optionValue c'.optionValue := by
  unfold Cursor.optionValue
  rw [h.atLiteral_eq]
  split
  · refine h.literal.bind ?_
    rintro ⟨text, i, value⟩ d hd ⟨text', i', value'⟩ d' hd' heq halike
    obtain ⟨rfl, -, rfl⟩ := LiteralToken.mk.inj heq
    exact .ok rfl halike (.refl d)
  · refine h.ident.bind ?_
    rintro ⟨text, i⟩ d hd ⟨text', i'⟩ d' hd' heq halike
    obtain ⟨rfl, -⟩ := Prod.mk.inj heq
    exact .ok rfl halike (.refl d)

theorem optionEntries {c c' : Cursor} (h : c.Alike m n c') :
    Agrees m n (fun offset (a : List (String × String) × Nat) => (a.1, a.2 + offset)) c
      c.optionEntries c'.optionEntries := by
  rw [Cursor.optionEntries, Cursor.optionEntries]
  refine h.ident.bind ?_
  rintro ⟨key, i⟩ d hd ⟨key', i'⟩ d' hd' heq halike
  obtain ⟨rfl, -⟩ := Prod.mk.inj heq
  dsimp only
  refine Agrees.bind (show Agrees m n (fun _ (a : String) => a) d _ _ from ?_) ?_
  · rcases halike.punct? '=' (by decide) with ⟨hnone, hnone'⟩ |
      ⟨_, e, he, _, e', he', hread, hread', -, halike', hpast⟩
    · rw [hnone, hnone']
      exact .ok rfl halike (.refl d)
    · rw [hread, hread']
      dsimp only
      refine (halike'.optionValue.past hpast).bind ?_
      rintro value f hf value' f' hf' rfl halike
      exact .ok rfl halike (.refl f)
  · rintro value e he value' e' he' rfl halike'
    dsimp only
    rcases halike'.punct? ',' (by decide) with ⟨hnone, hnone'⟩ |
      ⟨_, f, hf, _, f', hf', hread, hread', -, halike'', hpast⟩
    · rw [hnone, hnone']
      dsimp only
      refine (halike'.punct (by decide)).bind ?_
      rintro stop f hf stop' f' hf' hstop halike''
      exact .ok (congrArg ([(key, value)], ·) hstop) halike'' (.refl f)
    · rw [hread, hread']
      dsimp only
      have : f.size < c.size := Nat.lt_trans hf he
      refine (halike''.optionEntries.past hpast).bind ?_
      rintro ⟨entries, stop⟩ g hg ⟨entries', stop'⟩ g' hg' heq halike
      obtain ⟨rfl, hstop⟩ := Prod.mk.inj heq
      exact .ok (congrArg ((key, value) :: entries, ·) hstop) halike (.refl g)
termination_by c.size

end Alike

end Cursor

end GrammarCompiler
