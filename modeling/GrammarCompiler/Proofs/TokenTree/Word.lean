import GrammarCompiler.Proofs.TokenTree.Characters
import Mathlib.Data.List.TakeWhile

/-!
# Reading a word again

A word that was read from a text is read again wherever it stands in front of a character that
cannot go on with it. Text that the program writes has only a few characters behind words and
literals (`isBreak`): blanks, delimiters, and the punctuation around options.
-/

namespace GrammarCompiler

namespace Text

/-- The characters that are written right behind words and literals. -/
def isBreak (c : Char) : Bool :=
  " \n()]<[=,>".toList.contains c

/-- A text at whose head no word or literal goes on. -/
def Clear (cs : List Char) : Prop :=
  ∀ c ∈ cs.head?, isBreak c = true

theorem clear_nil : Clear [] := fun _ h => nomatch h

theorem clear_cons {c : Char} {cs : List Char} (h : isBreak c = true) : Clear (c :: cs) := by
  intro d hd
  rw [List.head?_cons, Option.mem_some_iff] at hd
  exact hd ▸ h

/-- What a break is not. -/
theorem isBreak_spec {c : Char} (h : isBreak c = true) :
    isIdentContinue c = false ∧ isIdentStart c = false ∧ c ≠ '"' ∧ c ≠ '\'' ∧ c ≠ '#' ∧ c ≠ '.' ∧
      c ≠ '_' ∧ c.isDigit = false ∧ c ≠ '+' ∧ c ≠ '-' ∧ c ≠ '/' ∧ c ≠ '*' := by
  have hmem : c ∈ " \n()]<[=,>".toList := List.contains_iff_mem.mp h
  simp only [show " \n()]<[=,>".toList = [' ', '\n', '(', ')', ']', '<', '[', '=', ',', '>'] from rfl,
    List.mem_cons, List.not_mem_nil, or_false] at hmem
  rcases hmem with rfl | rfl | rfl | rfl | rfl | rfl | rfl | rfl | rfl | rfl <;> decide

/-- The characters of a word. -/
theorem isIdent_iff {w : List Char} :
    isIdent (String.ofList w) = true ↔
      ∃ c cs, w = c :: cs ∧ isIdentStart c = true ∧ ∀ d ∈ cs, isIdentContinue d = true := by
  unfold isIdent
  rw [String.toList_ofList]
  cases w with
  | nil => simp
  | cons c cs =>
      simp only [Bool.and_eq_true, List.all_eq_true]
      refine ⟨fun h => ⟨c, cs, rfl, h⟩, ?_⟩
      rintro ⟨d, ds, h, hd⟩
      obtain ⟨rfl, rfl⟩ := List.cons.inj h
      exact hd

theorem takeWhile_append_clear {w rest : List Char} (hw : ∀ c ∈ w, isIdentContinue c = true)
    (hrest : Clear rest) : (w ++ rest).takeWhile isIdentContinue = w := by
  induction w with
  | nil =>
      cases rest with
      | nil => rfl
      | cons c cs =>
          have := (isBreak_spec (hrest c rfl)).1
          rw [List.nil_append, List.takeWhile_cons, this]
          rfl
  | cons c w ih =>
      obtain ⟨hc, hw⟩ := List.forall_mem_cons.mp hw
      rw [List.cons_append, List.takeWhile_cons, hc, if_pos rfl, ih hw]

/-- An identifier ends where it ended before. -/
theorem identLength_append {c : Char} {cs rest : List Char} (hc : isIdentStart c = true)
    (hcs : ∀ d ∈ cs, isIdentContinue d = true) (hrest : Clear rest) :
    identLength (c :: (cs ++ rest)) = some (cs.length + 1) := by
  show (if isIdentStart c = true then _ else _) = _
  rw [if_pos hc, takeWhile_append_clear hcs hrest]

theorem identLength_clear {rest : List Char} (hrest : Clear rest) : identLength rest = none := by
  cases rest with
  | nil => rfl
  | cons c cs =>
      show (if isIdentStart c = true then _ else _) = _
      rw [if_neg (by rw [(isBreak_spec (hrest c rfl)).2.1]; exact Bool.false_ne_true)]

end Text

namespace Lexeme

open Text

/-! ## What a word is not -/

/-- The characters that make a literal out of the letters before them. -/
def isMark (c : Char) : Bool :=
  c = '"' || c = '\'' || c = '#'

theorem isMark_of_isIdentContinue {c : Char} (h : isIdentContinue c = true) :
    isMark c = false := by
  have hspecial := not_isSpecial_of_isIdentContinue h
  rw [Bool.eq_false_iff]
  intro hmark
  unfold isMark at hmark
  simp only [Bool.or_eq_true, decide_eq_true_eq] at hmark
  rcases hmark with (rfl | rfl) | rfl <;> exact absurd hspecial (by decide)

theorem isMark_of_isBreak {c : Char} (h : isBreak c = true) : isMark c = false := by
  obtain ⟨-, -, h1, h2, h3, -⟩ := isBreak_spec h
  simp [isMark, h1, h2, h3]

/-- Letters in front of a text that is no mark. -/
theorem head?_not_mark {w rest : List Char} (hw : ∀ c ∈ w, isIdentContinue c = true)
    (hrest : Clear rest) : ∀ c ∈ (w ++ rest).head?, isMark c = false := by
  intro c hc
  cases w with
  | nil => exact isMark_of_isBreak (hrest c hc)
  | cons d w =>
      rw [List.cons_append, List.head?_cons, Option.mem_some_iff] at hc
      subst hc
      exact isMark_of_isIdentContinue (hw _ (List.mem_cons_self ..))

theorem cookedLength_of_not_mark {content : Literal.Content} {cs : List Char}
    (h : ∀ c ∈ cs.head?, isMark c = false) : Literal.cookedLength content cs = none := by
  unfold Literal.cookedLength
  split
  · exact absurd (h '"' rfl) (by decide)
  · rfl

theorem rawLength_of_not_mark {content : Literal.Content} {cs : List Char}
    (h : ∀ c ∈ cs.head?, isMark c = false) : Literal.rawLength content cs = none := by
  unfold Literal.rawLength
  cases cs with
  | nil => rfl
  | cons c cs =>
      have hc : c ≠ '#' := by
        rintro rfl
        exact absurd (h '#' rfl) (by decide)
      have hq : c ≠ '"' := by
        rintro rfl
        exact absurd (h '"' rfl) (by decide)
      simp [hc, hq]

/-- A word in front of a break is no quoted literal: no mark follows its first letters. -/
theorem quotedLength_word {w rest : List Char} {c : Char} (hc : isIdentStart c = true)
    (hw : ∀ d ∈ w, isIdentContinue d = true) (hrest : Clear rest) :
    Literal.quotedLength (c :: (w ++ rest)) = none := by
  have hhead := head?_not_mark hw hrest
  have hmark := isMark_of_isIdentContinue (isIdentContinue_of_isIdentStart hc)
  generalize hcs : w ++ rest = cs at hhead
  have tail : ∀ d ds, cs = d :: ds → isMark d = false → isIdentContinue d = true →
      ∀ e ∈ ds.head?, isMark e = false := by
    intro d ds hd _ hident
    cases w with
    | nil =>
        rw [List.nil_append] at hcs
        have := (isBreak_spec (hrest d (by rw [hcs, hd]; rfl))).1
        rw [hident] at this
        cases this
    | cons _ w' =>
        rw [List.cons_append] at hcs
        obtain ⟨-, rfl⟩ := List.cons.inj (hcs.trans hd)
        exact head?_not_mark (fun e he => hw e (List.mem_cons_of_mem _ he)) hrest
  unfold Literal.quotedLength
  split
  · obtain rfl := (List.cons.inj ‹c :: cs = _›).2
    rw [rawLength_of_not_mark hhead]
    rfl
  · have h := (List.cons.inj ‹c :: cs = _›).2
    rw [rawLength_of_not_mark (tail _ _ h (by decide) (by decide))]
    rfl
  · have h := (List.cons.inj ‹c :: cs = _›).2
    exact absurd (hhead '\'' (by rw [h]; rfl)) (by decide)
  · obtain rfl := (List.cons.inj ‹c :: cs = _›).2
    rw [cookedLength_of_not_mark hhead]
    rfl
  · have h := (List.cons.inj ‹c :: cs = _›).2
    rw [rawLength_of_not_mark (tail _ _ h (by decide) (by decide))]
    rfl
  · obtain rfl := (List.cons.inj ‹c :: cs = _›).2
    rw [cookedLength_of_not_mark hhead]
    rfl
  · rw [(List.cons.inj ‹c :: cs = _›).1] at hmark
    exact absurd hmark (by decide)
  · refine cookedLength_of_not_mark fun d hd => ?_
    obtain rfl := Option.some.inj hd
    exact hmark

theorem ten_le_of_hexDigit? {c : Char} {n : Nat} (h : Literal.hexDigit? c = some n)
    (hc : c.isDigit = false) : 10 ≤ n := by
  unfold Literal.hexDigit? at h
  split at h
  · next hd =>
      simp only [Bool.and_eq_true, decide_eq_true_eq, Char.le_def] at hd
      simp only [Char.isDigit, Bool.and_eq_false_iff, decide_eq_false_iff_not] at hc
      rcases hc with hc | hc
      · exact absurd hd.1 hc
      · exact absurd hd.2 hc
  · split at h
    · obtain rfl := Option.some.inj h
      exact Nat.le_add_left ..
    · split at h
      · obtain rfl := Option.some.inj h
        exact Nat.le_add_left ..
      · cases h

/-- A number begins with a digit. -/
theorem numberLength_of_not_digit {c : Char} {cs : List Char} (hc : c.isDigit = false) :
    Literal.numberLength (c :: cs) = none := by
  have hfloat : Literal.floatLength (c :: cs) = none := by
    show (if c.isDigit = true then _ else none) = _
    rw [if_neg (by rw [hc]; exact Bool.false_ne_true)]
  have hdigits : Literal.digitsLength 10 true (c :: cs) = none := by
    unfold Literal.digitsLength
    split
    · rfl
    · cases hn : Literal.hexDigit? c with
      | none => rfl
      | some n =>
          have := ten_le_of_hexDigit? hn hc
          show (if n < 10 then _ else _) = _
          rw [if_neg (by omega)]
          simp
  have hinteger : Literal.integerLength (c :: cs) = none := by
    unfold Literal.integerLength
    split
    · exact absurd ((List.cons.inj ‹c :: cs = _›).1 ▸ hc) (by decide)
    · exact absurd ((List.cons.inj ‹c :: cs = _›).1 ▸ hc) (by decide)
    · exact absurd ((List.cons.inj ‹c :: cs = _›).1 ▸ hc) (by decide)
    · exact hdigits
  unfold Literal.numberLength
  rw [hfloat, hinteger]
  rfl

theorem placeholderLength_of_ne {c : Char} {cs : List Char} (hc : c ≠ '(') :
    Literal.placeholderLength (c :: cs) = none := by
  unfold Literal.placeholderLength
  rw [if_neg]
  intro h
  have : ('(' == c) = true := by
    have hp : Literal.placeholder = '(' :: "/*ERROR*/)".toList := rfl
    rw [hp, List.isPrefixOf, Bool.and_eq_true] at h
    exact h.1
  exact hc (beq_iff_eq.mp this).symm

/-- A text is no literal if it is neither quoted nor a number nor the placeholder. -/
theorem length?_eq_none {c : Char} {cs : List Char} (hquoted : Literal.quotedLength (c :: cs) = none)
    (hdigit : c.isDigit = false) (hopen : c ≠ '(') : Literal.length? (c :: cs) = none := by
  unfold Literal.length?
  rw [hquoted]
  show (Literal.numberLength (c :: cs)).or (Literal.placeholderLength (c :: cs)) = none
  rw [numberLength_of_not_digit hdigit, placeholderLength_of_ne hopen]
  rfl

/-! ## Words -/

/-- The characters of a name. -/
theorem isName_iff {w : List Char} :
    isName (String.ofList w) = true ↔
      (∃ c cs, w = c :: cs ∧ isIdentStart c = true ∧ ∀ d ∈ cs, isIdentContinue d = true) ∨
      ∃ c cs, w = 'r' :: '#' :: c :: cs ∧ isIdentStart c = true ∧
        (∀ d ∈ cs, isIdentContinue d = true) ∧
        neverRaw.contains (String.ofList (c :: cs)) = false := by
  unfold isName
  rw [String.toList_ofList]
  split
  · next rest =>
      rw [Bool.and_eq_true, isIdent_iff, Bool.not_eq_true']
      constructor
      · rintro ⟨⟨c, cs, rfl, hc, hcs⟩, hraw⟩
        exact .inr ⟨c, cs, rfl, hc, hcs, hraw⟩
      · rintro (⟨c, cs, h, hc, hcs⟩ | ⟨c, cs, h, hc, hcs, hraw⟩)
        · obtain ⟨-, rfl⟩ := List.cons.inj h
          exact absurd (hcs '#' (List.mem_cons_self ..)) (by decide)
        · obtain rfl := (List.cons.inj (List.cons.inj h).2).2
          exact ⟨⟨c, cs, rfl, hc, hcs⟩, hraw⟩
  · next hne =>
      rw [isIdent_iff]
      refine ⟨.inl, ?_⟩
      rintro (h | ⟨c, cs, rfl, -⟩)
      · exact h
      · exact absurd rfl (hne (c :: cs))

/-- A name does not begin with a byte order mark. -/
theorem head?_ne_byteOrderMark {text : String} (h : isName text = true) (rest : List Char) :
    (text.toList ++ rest).head? ≠ some Scan.byteOrderMark := by
  intro hmark
  rw [← String.ofList_toList (s := text)] at h
  rcases isName_iff.mp h with ⟨c, cs, htext, hc, -⟩ | ⟨c, cs, htext, -⟩
  · rw [htext, List.cons_append, List.head?_cons, Option.some.injEq] at hmark
    exact absurd (hmark ▸ hc) (by decide +kernel)
  · rw [htext, List.cons_append, List.head?_cons, Option.some.injEq] at hmark
    exact absurd hmark (by decide)

/-- A word that is read from a text is a name. -/
theorem isName_of_identLength? {cs : List Char} {n : Nat} (h : identLength? cs = some n) :
    isName (String.ofList (cs.take n)) = true := by
  have hword : ∀ {cs : List Char} {n : Nat}, identLength cs = some n →
      ∃ c ds, cs.take n = c :: ds ∧ isIdentStart c = true ∧
        ∀ d ∈ ds, isIdentContinue d = true := by
    intro cs n h
    cases cs with
    | nil => cases h
    | cons c cs =>
        obtain ⟨hc, h⟩ := Option.ite_none_right_eq_some.mp h
        obtain rfl := Option.some.inj h
        refine ⟨c, cs.takeWhile isIdentContinue, ?_, hc, fun d hd => ?_⟩
        · rw [List.take_succ_cons, ← List.prefix_iff_eq_take.mp (List.takeWhile_prefix _)]
        · exact List.mem_takeWhile_imp hd
  unfold identLength? at h
  obtain ⟨-, h⟩ := Option.ite_none_left_eq_some.mp h
  unfold rawIdentLength at h
  split at h
  · next cs =>
      obtain ⟨m, hm, h⟩ := Option.bind_eq_some_iff.mp h
      obtain ⟨hraw, h⟩ := Option.ite_none_left_eq_some.mp h
      obtain rfl := Option.some.inj h
      obtain ⟨c, ds, htake, hc, hds⟩ := hword hm
      rw [htake] at hraw
      refine isName_iff.mpr (.inr ⟨c, ds, ?_, hc, hds, by simpa using hraw⟩)
      rw [List.take_succ_cons, List.take_succ_cons, htake]
  · exact isName_iff.mpr (.inl (hword h))

/-- No beginning of a literal stands in front of a break. -/
theorem not_literalStart {w rest : List Char} {c : Char} (hc : isIdentStart c = true)
    (hw : ∀ d ∈ w, isIdentContinue d = true) (hrest : Clear rest) :
    literalStarts.any (·.isPrefixOf (c :: (w ++ rest))) = false := by
  rw [List.any_eq_false]
  intro start hstart hopening
  obtain ⟨tail, htail⟩ := List.isPrefixOf_iff_prefix.mp hopening
  -- letters with a mark behind them
  have hshape : ∃ letters mark behind, start = letters ++ mark :: behind ∧
      (∀ d ∈ letters, isIdentContinue d = true) ∧ isMark mark = true := by
    have := List.all_eq_true.mp (show literalStarts.all (fun s =>
      (s.dropWhile isIdentContinue).head?.any isMark) = true by decide) start hstart
    obtain ⟨mark, hmark, hm⟩ := (Option.any_eq_true ..).mp this
    obtain ⟨behind, hbehind⟩ := List.head?_eq_some_iff.mp hmark
    refine ⟨start.takeWhile isIdentContinue, mark, behind, ?_, fun d hd => ?_, hm⟩
    · rw [← hbehind, List.takeWhile_append_dropWhile]
    · exact List.mem_takeWhile_imp hd
  obtain ⟨letters, mark, behind, rfl, hletters, hmark⟩ := hshape
  have hstop : isIdentContinue mark = false := by
    rw [Bool.eq_false_iff]
    intro h
    rw [isMark_of_isIdentContinue h] at hmark
    cases hmark
  have hall : ∀ d ∈ c :: w, isIdentContinue d = true :=
    List.forall_mem_cons.mpr ⟨isIdentContinue_of_isIdentStart hc, hw⟩
  have hleft : (letters ++ mark :: behind ++ tail).takeWhile isIdentContinue = letters := by
    rw [List.append_assoc, List.takeWhile_append_of_pos hletters, List.cons_append,
      List.takeWhile_cons, hstop]
    exact List.append_nil _
  rw [htail, ← List.cons_append, takeWhile_append_clear hall hrest] at hleft
  rw [← hleft, List.append_assoc, ← List.cons_append (a := c)] at htail
  have := List.append_cancel_left htail
  have := isMark_of_isBreak (hrest mark (by rw [← this]; rfl))
  rw [hmark] at this
  cases this

theorem commentLength_of_ne {c : Char} {cs : List Char} (hc : c ≠ '/') :
    commentLength (c :: cs) = none := by
  unfold commentLength
  split
  all_goals first | rfl | exact absurd (List.cons.inj ‹c :: cs = _›).1 hc

theorem doc?_of_ne {c : Char} {cs : List Char} (hc : c ≠ '/') : doc? (c :: cs) = none := by
  unfold doc?
  dsimp only
  split
  all_goals first | rfl | exact absurd (List.cons.inj ‹c :: cs = _›).1 hc

/-- A leaf stands at the head of a text unless a comment or a gap does. -/
theorem head_eq_leaf {c : Char} {cs : List Char} {token : Leaf} {n : Nat}
    (hcomment : commentLength (c :: cs) = none) (hgap : isGap c = false)
    (hdoc : doc? (c :: cs) = none) (h : leaf? (c :: cs) = some (token, n)) :
    head c cs = .lexeme (.leaf token) (n - 1) := by
  unfold head
  rw [hcomment]
  show (if isGap c = true then _ else _) = _
  rw [if_neg (by rw [hgap]; exact Bool.false_ne_true), hdoc, h]

theorem punct?_of_not_special {c : Char} {cs : List Char} (hc : isSpecial c = false) :
    punct? (c :: cs) = none := by
  have : punctuation.contains c = false := by
    unfold isSpecial at hc
    rw [Bool.or_eq_false_iff, Bool.or_eq_false_iff] at hc
    exact hc.1.2
  unfold punct?
  split
  · rfl
  · rfl
  · next h =>
      obtain rfl := (List.cons.inj h).1
      rw [this]
      rfl
  · rfl

/-- A name is as long in front of a break as by itself, and it is no quoted literal there. -/
theorem identLength?_word {c : Char} {w rest : List Char}
    (h : isName (String.ofList (c :: w)) = true) (hrest : Clear rest) :
    identLength? (c :: (w ++ rest)) = some (w.length + 1) ∧
      Literal.quotedLength (c :: (w ++ rest)) = none := by
  have hstart : isIdentStart c = true := by
    rcases isName_iff.mp h with ⟨_, _, h, hc, -⟩ | ⟨_, _, h, -⟩
    · exact (List.cons.inj h).1 ▸ hc
    · exact (List.cons.inj h).1 ▸ (by decide)
  rcases isName_iff.mp h with ⟨_, _, h, -, hw⟩ | ⟨d, ds, h, hd, hds, hraw⟩
  · obtain ⟨rfl, rfl⟩ := List.cons.inj h
    refine ⟨?_, quotedLength_word hstart hw hrest⟩
    unfold identLength?
    rw [if_neg (by rw [not_literalStart hstart hw hrest]; exact Bool.false_ne_true)]
    unfold rawIdentLength
    split
    · next h =>
        obtain ⟨-, h⟩ := List.cons.inj h
        exact absurd (head?_not_mark hw hrest '#' (by rw [h]; rfl)) (by decide)
    · exact identLength_append hstart hw hrest
  · obtain ⟨rfl, rfl⟩ := List.cons.inj h
    have hdmark := isMark_of_isIdentContinue (isIdentContinue_of_isIdentStart hd)
    constructor
    · have hstarts : literalStarts.any
          (·.isPrefixOf ('r' :: '#' :: d :: (ds ++ rest))) = false := by
        have h1 : ('"' == d) = false := by
          rw [beq_eq_false_iff_ne]
          rintro rfl
          exact absurd hdmark (by decide)
        have h2 : ('#' == d) = false := by
          rw [beq_eq_false_iff_ne]
          rintro rfl
          exact absurd hdmark (by decide)
        simp [literalStarts, List.isPrefixOf, h1, h2]
      unfold identLength?
      rw [List.cons_append, List.cons_append,
        if_neg (by rw [hstarts]; exact Bool.false_ne_true)]
      show (identLength (d :: (ds ++ rest))).bind _ = _
      rw [identLength_append hd hds hrest]
      show (if neverRaw.contains (String.ofList ((d :: (ds ++ rest)).take (ds.length + 1))) = true
        then none else some (ds.length + 1 + 2)) = _
      rw [List.take_succ_cons, List.take_left, if_neg (by rw [hraw]; exact Bool.false_ne_true)]
      rfl
    · show (Literal.rawLength .text ('#' :: d :: (ds ++ rest))).map (· + 1) = none
      have hraw : Literal.rawLength .text ('#' :: d :: (ds ++ rest)) = none := by
        have h1 : d ≠ '"' := by
          rintro rfl
          exact absurd hdmark (by decide)
        have h2 : d ≠ '#' := by
          rintro rfl
          exact absurd hdmark (by decide)
        simp [Literal.rawLength, h1, h2, Literal.maxHashes]
      rw [hraw]
      rfl

/-- A name in front of a break is read as a word. -/
theorem head_word {c : Char} {w rest : List Char}
    (h : isName (String.ofList (c :: w)) = true) (hrest : Clear rest) :
    head c (w ++ rest) = .lexeme (.leaf (.ident (String.ofList (c :: w)))) w.length := by
  have hstart : isIdentStart c = true := by
    rcases isName_iff.mp h with ⟨_, _, h, hc, -⟩ | ⟨_, _, h, -⟩
    · exact (List.cons.inj h).1 ▸ hc
    · exact (List.cons.inj h).1 ▸ (by decide)
  have hspecial := not_isSpecial_of_isIdentContinue (isIdentContinue_of_isIdentStart hstart)
  have hne : ∀ d, isSpecial d = true → c ≠ d := by
    rintro d hd rfl
    rw [hd] at hspecial
    cases hspecial
  have hlength := identLength?_word h hrest
  refine head_eq_leaf (commentLength_of_ne (hne _ (by decide))) ?_
    (doc?_of_ne (hne _ (by decide))) (n := w.length + 1) ?_
  · unfold isSpecial at hspecial
    rw [Bool.or_eq_false_iff, Bool.or_eq_false_iff] at hspecial
    exact hspecial.1.1
  · unfold leaf?
    rw [length?_eq_none hlength.2 (not_isDigit_of_isIdentStart hstart) (hne _ (by decide)),
      punct?_of_not_special hspecial, hlength.1]
    show some (Leaf.ident (String.ofList ((c :: (w ++ rest)).take (w.length + 1))), w.length + 1) = _
    rw [List.take_succ_cons, List.take_left]

end Lexeme

end GrammarCompiler
