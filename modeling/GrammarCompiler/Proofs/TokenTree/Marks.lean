import GrammarCompiler.Proofs.TokenTree.Flat
import GrammarCompiler.Proofs.TokenTree.Word

/-!
# Reading blanks, delimiters and punctuation

What a single character is read as, whatever comes behind it. Only two characters depend on that:
a slash may begin a comment, and an opening parenthesis the placeholder.
-/

namespace GrammarCompiler

open Text

namespace Lexeme

section Special

variable {c : Char} {cs : List Char} (hspecial : isSpecial c = true)

include hspecial

theorem not_isIdentContinue_of_isSpecial : isIdentContinue c = false := by
  rw [Bool.eq_false_iff]
  intro h
  rw [not_isSpecial_of_isIdentContinue h] at hspecial
  cases hspecial

theorem ne_of_isSpecial {d : Char} (hd : isIdentContinue d = true) : c ≠ d := by
  rintro rfl
  rw [not_isIdentContinue_of_isSpecial hspecial] at hd
  cases hd

/-- No word begins with a character that means something by itself. -/
theorem identLength?_of_isSpecial : identLength? (c :: cs) = none := by
  have hstart : isIdentStart c = false := by
    rw [Bool.eq_false_iff]
    intro h
    have := isIdentContinue_of_isIdentStart h
    rw [not_isIdentContinue_of_isSpecial hspecial] at this
    cases this
  unfold identLength?
  split
  · rfl
  · unfold rawIdentLength
    split
    · next h => exact absurd (List.cons.inj h).1 (ne_of_isSpecial hspecial (by decide))
    · show (if isIdentStart c = true then _ else _) = _
      rw [if_neg (by rw [hstart]; exact Bool.false_ne_true)]

/-- Only quotes and letters begin a quoted literal. -/
theorem quotedLength_of_isSpecial (hsingle : c ≠ '\'') (hdouble : c ≠ '"') :
    Literal.quotedLength (c :: cs) = none := by
  have hne : ∀ d, isIdentContinue d = true → c ≠ d := fun d => ne_of_isSpecial hspecial
  unfold Literal.quotedLength
  split
  · exact absurd (List.cons.inj ‹c :: cs = _›).1 (hne _ (by decide))
  · exact absurd (List.cons.inj ‹c :: cs = _›).1 (hne _ (by decide))
  · exact absurd (List.cons.inj ‹c :: cs = _›).1 (hne _ (by decide))
  · exact absurd (List.cons.inj ‹c :: cs = _›).1 (hne _ (by decide))
  · exact absurd (List.cons.inj ‹c :: cs = _›).1 (hne _ (by decide))
  · exact absurd (List.cons.inj ‹c :: cs = _›).1 (hne _ (by decide))
  · exact absurd (List.cons.inj ‹c :: cs = _›).1 hsingle
  · unfold Literal.cookedLength
    split
    · exact absurd (List.cons.inj ‹c :: cs = _›).1 hdouble
    · rfl

theorem not_isDigit_of_isSpecial : c.isDigit = false := by
  rw [Bool.eq_false_iff]
  intro h
  have hascii : c.toNat < 0x80 := by
    simp only [Char.isDigit, Bool.and_eq_true, decide_eq_true_eq] at h
    have : c.toNat ≤ 57 := h.2
    omega
  have := of_ascii (p := fun c => !c.isDigit || isIdentContinue c) (by decide +kernel) hascii
  rw [h, not_isIdentContinue_of_isSpecial hspecial] at this
  cases this

theorem length?_of_isSpecial (hsingle : c ≠ '\'') (hdouble : c ≠ '"') (hopen : c ≠ '(') :
    Literal.length? (c :: cs) = none :=
  length?_eq_none (quotedLength_of_isSpecial hspecial hsingle hdouble)
    (not_isDigit_of_isSpecial hspecial) hopen

end Special

/-! ## Delimiters -/

theorem leaf?_delimiter {c : Char} {cs : List Char} (hspecial : isSpecial c = true)
    (hpunct : punctuation.contains c = false) (hdouble : c ≠ '"') (hopen : c ≠ '(') :
    leaf? (c :: cs) = none := by
  have hne : ∀ d, punctuation.contains d = true → c ≠ d := by
    rintro d hd rfl
    rw [hd] at hpunct
    cases hpunct
  have hnone : punct? (c :: cs) = none := by
    unfold punct?
    split
    · rfl
    · rfl
    · next h =>
        rw [← (List.cons.inj h).1, hpunct]
        rfl
    · rfl
  unfold leaf?
  rw [length?_of_isSpecial hspecial (hne _ (by decide)) hdouble hopen, hnone,
    identLength?_of_isSpecial hspecial]
  rfl

/-- A delimiter other than an opening parenthesis is always read as what it is. -/
theorem head_delimiter {c : Char} {cs : List Char} (hspecial : isSpecial c = true)
    (hpunct : punctuation.contains c = false) (hdouble : c ≠ '"') (hopen : c ≠ '(')
    (hgap : isGap c = false) :
    head c cs = match Delimiter.opening? c, Delimiter.closing? c with
      | some d, _ => .lexeme (.opening d) 0
      | none, some d => .lexeme (.closing d) 0
      | none, none => .stuck := by
  have hslash : c ≠ '/' := by
    rintro rfl
    cases hpunct
  unfold head
  rw [commentLength_of_ne hslash]
  show (if isGap c = true then _ else _) = _
  rw [if_neg (by rw [hgap]; exact Bool.false_ne_true), doc?_of_ne hslash,
    leaf?_delimiter hspecial hpunct hdouble hopen]
  cases Delimiter.opening? c <;> cases Delimiter.closing? c <;> rfl

theorem head_opening {c : Char} {d : Delimiter} (h : Delimiter.opening? c = some d) (hc : c ≠ '(')
    (cs : List Char) : head c cs = .lexeme (.opening d) 0 := by
  unfold Delimiter.opening? at h
  split at h
  · exact absurd rfl hc
  · obtain rfl := Option.some.inj h
    exact head_delimiter (by decide) (by decide) (by decide) (by decide) (by decide)
  · obtain rfl := Option.some.inj h
    exact head_delimiter (by decide) (by decide) (by decide) (by decide) (by decide)
  · cases h

theorem head_closing {c : Char} {d : Delimiter} (h : Delimiter.closing? c = some d)
    (cs : List Char) : head c cs = .lexeme (.closing d) 0 := by
  unfold Delimiter.closing? at h
  split at h
  · obtain rfl := Option.some.inj h
    exact head_delimiter (by decide) (by decide) (by decide) (by decide) (by decide)
  · obtain rfl := Option.some.inj h
    exact head_delimiter (by decide) (by decide) (by decide) (by decide) (by decide)
  · obtain rfl := Option.some.inj h
    exact head_delimiter (by decide) (by decide) (by decide) (by decide) (by decide)
  · cases h

/-! ## Gaps -/

theorem head_gap {c : Char} {cs : List Char} (hgap : isGap c = true) : head c cs = .gap 0 := by
  have hslash : c ≠ '/' := by
    rintro rfl
    cases hgap
  unfold head
  rw [commentLength_of_ne hslash]
  show (if isGap c = true then _ else _) = _
  rw [if_pos hgap]

/-! ## Punctuation -/

/-- Whether a slash, if it is one, begins no comment. -/
def NoComment (c : Char) (cs : List Char) : Prop :=
  c = '/' → ∀ d ∈ cs.head?, d ≠ '/' ∧ d ≠ '*'

theorem noComment_of_ne {c : Char} {cs : List Char} (h : c ≠ '/') : NoComment c cs :=
  fun hc => absurd hc h

theorem commentLength_of_noComment {c : Char} {cs : List Char} (h : NoComment c cs) :
    commentLength (c :: cs) = none := by
  by_cases hc : c = '/'
  · subst hc
    have hcs := h rfl
    unfold commentLength
    split
    all_goals first
      | rfl
      | exact absurd rfl (hcs '/' (by rw [(List.cons.inj ‹_ :: cs = _›).2]; rfl)).1
      | exact absurd rfl (hcs '*' (by rw [(List.cons.inj ‹_ :: cs = _›).2]; rfl)).2
  · exact commentLength_of_ne hc

theorem doc?_of_noComment {c : Char} {cs : List Char} (h : NoComment c cs) :
    doc? (c :: cs) = none := by
  by_cases hc : c = '/'
  · subst hc
    have hcs := h rfl
    unfold doc?
    dsimp only
    split
    all_goals first
      | rfl
      | exact absurd rfl (hcs '/' (by rw [(List.cons.inj ‹_ :: cs = _›).2]; rfl)).1
      | exact absurd rfl (hcs '*' (by rw [(List.cons.inj ‹_ :: cs = _›).2]; rfl)).2
  · exact doc?_of_ne hc

theorem punct?_of_noComment {c : Char} {cs : List Char} (h : NoComment c cs)
    (hc : punctuation.contains c = true) : punct? (c :: cs) = some c := by
  unfold punct?
  split
  · exact absurd rfl (h (List.cons.inj ‹c :: cs = _›).1 '/'
      (by rw [(List.cons.inj ‹c :: cs = _›).2]; rfl)).1
  · exact absurd rfl (h (List.cons.inj ‹c :: cs = _›).1 '*'
      (by rw [(List.cons.inj ‹c :: cs = _›).2]; rfl)).2
  · next h =>
      obtain ⟨rfl, rfl⟩ := List.cons.inj h
      rw [if_pos hc]
  · next h => cases h

/-- Punctuation is joint if more of it follows. -/
theorem head_punct {c : Char} {cs : List Char} (hc : punctuation.contains c = true)
    (hquote : c ≠ '\'') (h : NoComment c cs) :
    head c cs = .lexeme (.leaf (.punct c (punct? cs).isSome)) 0 := by
  have hspecial : isSpecial c = true := by
    unfold isSpecial
    rw [hc, Bool.or_true, Bool.true_or]
  have hne : ∀ d, punctuation.contains d = false → c ≠ d := by
    rintro d hd rfl
    rw [hc] at hd
    cases hd
  have hgap : isGap c = false := by
    have := List.all_eq_true.mp (show punctuation.all (fun c => !isGap c) = true by decide) c
      (List.contains_iff_mem.mp hc)
    simpa using this
  refine head_eq_leaf (commentLength_of_noComment h) hgap (doc?_of_noComment h) (n := 1) ?_
  unfold leaf?
  rw [length?_of_isSpecial hspecial hquote (hne _ (by decide)) (hne _ (by decide)),
    punct?_of_noComment h hc]
  dsimp only
  split
  · next h => exact absurd (Option.some.inj h) hquote
  · next h =>
      obtain rfl := Option.some.inj h
      rfl
  · next h => cases h

end Lexeme

/-! ## Scanning -/

namespace Lexes

variable {cs rest : List Char} {ls : List Lexeme} {c : Char}

theorem blank (hc : isGap c = true) (h : Lexes cs ls rest) : Lexes (c :: cs) ls rest :=
  (Lexes.gap (Lexeme.head_gap hc)).trans h

theorem opening {d : Delimiter} (hd : Delimiter.opening? c = some d) (hc : c ≠ '(')
    (h : Lexes cs ls rest) : Lexes (c :: cs) (.opening d :: ls) rest :=
  (Lexes.lexeme (Lexeme.head_opening hd hc cs)).trans h

theorem closing {d : Delimiter} (hd : Delimiter.closing? c = some d) (h : Lexes cs ls rest) :
    Lexes (c :: cs) (.closing d :: ls) rest :=
  (Lexes.lexeme (Lexeme.head_closing hd cs)).trans h

theorem word {w : List Char} (hw : isName (String.ofList w) = true) (hcs : Clear cs)
    (h : Lexes cs ls rest) : Lexes (w ++ cs) (.leaf (.ident (String.ofList w)) :: ls) rest := by
  cases w with
  | nil => exact absurd hw (by decide)
  | cons c w => exact Lexes.cons (Lexeme.head_word hw hcs) h

theorem punct (hc : Lexeme.punctuation.contains c = true) (hquote : c ≠ '\'')
    (hcs : Lexeme.NoComment c cs) (h : Lexes cs ls rest) :
    Lexes (c :: cs) (.leaf (.punct c (Lexeme.punct? cs).isSome) :: ls) rest :=
  (Lexes.lexeme (Lexeme.head_punct hc hquote hcs)).trans h

end Lexes

end GrammarCompiler
