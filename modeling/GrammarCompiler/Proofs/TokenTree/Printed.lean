import GrammarCompiler.Proofs.TokenTree.Marks
import GrammarCompiler.Proofs.TokenTree.Names
import GrammarCompiler.Proofs.TokenTree.Quoted
import GrammarCompiler.TokenTree.Print

/-!
# Reading printed trees again

What is read from a text are leaves that are read again when they are printed (`Lexeme.Chain`): words
and literals end in front of a break, and punctuation that is joint has something behind it that it
touched in the text. So trees that were read are printed as a text that is scanned as their lexemes
(`lexes_texts`), and is read as the same trees at other places (`parse_of_lexes`).
-/

namespace GrammarCompiler

open Text

namespace Lexeme

/-! ## Leaves that are read again -/

/-- Whether a leaf may stand right behind punctuation. Behind the mark of a lifetime stands a word or
a literal, behind other punctuation something that begins with punctuation, but no comment. -/
def Joins (c : Char) (token : Leaf) : Prop :=
  if c = '\'' then
    (∀ d joint, token ≠ .punct d joint) ∧ ∀ rest, Clear rest →
      head c (token.text.toList ++ rest) = .lexeme (.leaf (.punct c true)) 0
  else ∃ d ds, token.text.toList = d :: ds ∧ punctuation.contains d = true ∧
    (c = '/' → d ≠ '/' ∧ d ≠ '*')

/-- Whether a lexeme is read again in front of others. -/
def Link : Lexeme → List Lexeme → Prop
  | .leaf (.ident text), _ => isName text = true
  | .leaf (.literal text), _ => Literal.length? text.toList = some text.toList.length
  | .leaf (.punct c false), _ => punctuation.contains c = true ∧ c ≠ '\''
  | .leaf (.punct c true), next => punctuation.contains c = true ∧
    ∃ token ls, next = .leaf token :: ls ∧ Joins c token
  | .doc _ _, _ => False
  | _, _ => True

/-- Lexemes each of which is read again in front of the others. -/
def Chain : List Lexeme → Prop
  | [] => True
  | lexeme :: ls => Link lexeme ls ∧ Chain ls

theorem Chain.right {ls ls' : List Lexeme} (h : Chain (ls ++ ls')) : Chain ls' := by
  induction ls with
  | nil => exact h
  | cons lexeme ls ih => exact ih h.2

/-! ## What the head of a text is -/

/-- The leaf at the head of a text. -/
theorem leaf?_cases {cs : List Char} {token : Leaf} {n : Nat} (h : leaf? cs = some (token, n)) :
    (Literal.length? cs = some n ∧ token = .literal (String.ofList (cs.take n))) ∨
    (Literal.length? cs = none ∧ n = 1 ∧
      ((punct? cs = some '\'' ∧ isLifetime (cs.drop 1) = true ∧ token = .punct '\'' true) ∨
        ∃ c, punct? cs = some c ∧ c ≠ '\'' ∧ token = .punct c (punct? (cs.drop 1)).isSome)) ∨
    (punct? cs = none ∧ identLength? cs = some n ∧
      token = .ident (String.ofList (cs.take n))) := by
  unfold leaf? at h
  split at h
  · next m hm =>
      obtain ⟨rfl, rfl⟩ := Prod.mk.inj (Option.some.inj h)
      exact .inl ⟨hm, rfl⟩
  · next hnone =>
      refine .inr ?_
      split at h
      · next hquote =>
          obtain ⟨hlifetime, h⟩ := Option.ite_none_right_eq_some.mp h
          obtain ⟨rfl, rfl⟩ := Prod.mk.inj (Option.some.inj h)
          exact .inl ⟨hnone, rfl, .inl ⟨hquote, hlifetime, rfl⟩⟩
      · next c hne hc =>
          obtain ⟨rfl, rfl⟩ := Prod.mk.inj (Option.some.inj h)
          exact .inl ⟨hnone, rfl, .inr ⟨c, hc, fun h => hne h, rfl⟩⟩
      · next hpunct =>
          obtain ⟨m, hm, h⟩ := Option.map_eq_some_iff.mp h
          obtain ⟨rfl, rfl⟩ := Prod.mk.inj h
          exact .inr ⟨hpunct, hm, rfl⟩

theorem doc?_cases {cs : List Char} {lexeme : Lexeme} {n : Nat} (h : doc? cs = some (lexeme, n)) :
    ∃ inner text, lexeme = .doc inner text := by
  have hline : ∀ {inner : Bool} {rest : List Char},
      (if hasBareReturn (docLine rest) then none
        else some (Lexeme.doc inner (String.ofList (docLine rest)), lineLength rest + 3)) =
          some (lexeme, n) → ∃ inner text, lexeme = .doc inner text := by
    intro inner rest h
    obtain ⟨-, h⟩ := Option.ite_none_left_eq_some.mp h
    exact ⟨_, _, (Prod.mk.inj (Option.some.inj h)).1.symm⟩
  have hblock : ∀ {inner : Bool},
      ((blockLength 0 cs).bind fun n =>
        if hasBareReturn ((cs.take (n - 2)).drop 3) then none
        else some (Lexeme.doc inner (String.ofList ((cs.take (n - 2)).drop 3)), n)) =
          some (lexeme, n) → ∃ inner text, lexeme = .doc inner text := by
    intro inner h
    obtain ⟨m, -, h⟩ := Option.bind_eq_some_iff.mp h
    obtain ⟨-, h⟩ := Option.ite_none_left_eq_some.mp h
    exact ⟨_, _, (Prod.mk.inj (Option.some.inj h)).1.symm⟩
  unfold doc? at h
  dsimp only at h
  split at h
  · exact hline h
  · exact hblock h
  · exact hline h
  · exact hblock h
  · cases h

/-- The lexeme at the head of a text. -/
theorem head_cases {c : Char} {cs : List Char} {lexeme : Lexeme} {more : Nat}
    (h : head c cs = .lexeme lexeme more) :
    (∃ inner text, lexeme = .doc inner text) ∨
    (∃ token n, lexeme = .leaf token ∧ leaf? (c :: cs) = some (token, n) ∧ more = n - 1 ∧
      commentLength (c :: cs) = none ∧ isGap c = false ∧ doc? (c :: cs) = none) ∨
    (∃ delimiter, lexeme = .opening delimiter) ∨ ∃ delimiter, lexeme = .closing delimiter := by
  unfold head at h
  split at h
  · cases h
  · next hcomment =>
      split at h
      · cases h
      · next hgap =>
          split at h
          · next l n hdoc =>
              obtain ⟨rfl, rfl⟩ := Head.lexeme.inj h
              exact .inl (doc?_cases hdoc)
          · next hdoc =>
              split at h
              · next token n hleaf =>
                  obtain ⟨rfl, rfl⟩ := Head.lexeme.inj h
                  exact .inr (.inl ⟨token, n, rfl, hleaf, rfl, hcomment, by simpa using hgap, hdoc⟩)
              · obtain ⟨rfl, rfl⟩ := Head.lexeme.inj h
                exact .inr (.inr (.inl ⟨_, rfl⟩))
              · obtain ⟨rfl, rfl⟩ := Head.lexeme.inj h
                exact .inr (.inr (.inr ⟨_, rfl⟩))
              · cases h

/-! ## Joint punctuation -/

theorem length_pos_of_length? {cs : List Char} {n : Nat} (h : Literal.length? cs = some n) :
    0 < n := by
  rcases Nat.eq_zero_or_pos n with rfl | hn
  · have hself := (Literal.length?_take h).2
    rw [List.take_zero] at hself
    cases hself
  · exact hn

theorem punct?_eq_some {cs : List Char} {d : Char} (h : punct? cs = some d) :
    ∃ ds, cs = d :: ds ∧ punctuation.contains d = true ∧ NoComment d ds := by
  unfold punct? at h
  split at h
  · cases h
  · cases h
  · next c ds hline hblock =>
      obtain ⟨hc, h⟩ := Option.ite_none_right_eq_some.mp h
      obtain rfl := Option.some.inj h
      refine ⟨ds, rfl, hc, fun hslash d hd => ⟨?_, ?_⟩⟩
      · rintro rfl
        obtain ⟨tail, rfl⟩ := List.head?_eq_some_iff.mp hd
        exact hline tail hslash rfl
      · rintro rfl
        obtain ⟨tail, rfl⟩ := List.head?_eq_some_iff.mp hd
        exact hblock tail hslash rfl
  · cases h

/-- A text at whose head no leaf begins, and that is neither a comment nor a delimiter, cannot be
read. -/
theorem head_stuck {c : Char} {cs : List Char} (hcomment : commentLength (c :: cs) = none)
    (hgap : isGap c = false) (hdoc : doc? (c :: cs) = none) (hleaf : leaf? (c :: cs) = none)
    (hopening : Delimiter.opening? c = none) (hclosing : Delimiter.closing? c = none) :
    head c cs = .stuck := by
  unfold head
  rw [hcomment, hdoc, hleaf, hopening, hclosing]
  show (if isGap c = true then _ else _) = _
  rw [if_neg (by rw [hgap]; exact Bool.false_ne_true)]

/-- Where a text can be read, and is neither a gap nor a delimiter, a leaf begins. -/
theorem scan_leaf {p : Position} {c : Char} {cs : List Char}
    (hcomment : commentLength (c :: cs) = none) (hgap : isGap c = false)
    (hdoc : doc? (c :: cs) = none) (hopening : Delimiter.opening? c = none)
    (hclosing : Delimiter.closing? c = none)
    (hstuck : (Scan.scanFrom p (c :: cs)).stuck = none) :
    ∃ token n placed, leaf? (c :: cs) = some (token, n) ∧
      (Scan.scanFrom p (c :: cs)).lexemes = (.leaf token, p) :: placed := by
  cases hleaf : leaf? (c :: cs) with
  | none =>
      rw [Scan.scanFrom, head_stuck hcomment hgap hdoc hleaf hopening hclosing] at hstuck
      cases hstuck
  | some leaf =>
      obtain ⟨token, n⟩ := leaf
      rw [Scan.scanFrom, head_eq_leaf hcomment hgap hdoc hleaf]
      exact ⟨token, n, _, rfl, rfl⟩

theorem not_delimiter_of_punct {c : Char} (hc : punctuation.contains c = true) :
    isGap c = false ∧ Delimiter.opening? c = none ∧ Delimiter.closing? c = none := by
  have hall := List.all_eq_true.mp (show punctuation.all (fun c => !isGap c &&
    (Delimiter.opening? c).isNone && (Delimiter.closing? c).isNone) = true by decide) c
      (List.contains_iff_mem.mp hc)
  simpa [and_assoc] using hall

/-- Punctuation at the head of a text that can be read is a leaf that begins with it. -/
theorem scan_punct {p : Position} {cs : List Char} {d : Char} (hd : punct? cs = some d)
    (hstuck : (Scan.scanFrom p cs).stuck = none) :
    ∃ token placed, (Scan.scanFrom p cs).lexemes = (.leaf token, p) :: placed ∧
      ∃ ds, token.text.toList = d :: ds := by
  obtain ⟨ds, rfl, hpunct, hcomment⟩ := punct?_eq_some hd
  obtain ⟨hgap, hopening, hclosing⟩ := not_delimiter_of_punct hpunct
  obtain ⟨token, n, placed, hleaf, hlexemes⟩ := scan_leaf (commentLength_of_noComment hcomment) hgap
    (doc?_of_noComment hcomment) hopening hclosing hstuck
  refine ⟨token, placed, hlexemes, ?_⟩
  rcases leaf?_cases hleaf with ⟨hlength, rfl⟩ | ⟨-, -, ⟨hquote, -, rfl⟩ | ⟨c, hc, -, rfl⟩⟩ |
    ⟨hnone, -⟩
  · obtain ⟨m, rfl⟩ := Nat.exists_eq_succ_of_ne_zero (length_pos_of_length? hlength).ne'
    exact ⟨ds.take m, by rw [Leaf.text, String.toList_ofList, List.take_succ_cons]⟩
  · rw [hd] at hquote
    obtain rfl := Option.some.inj hquote
    exact ⟨[], rfl⟩
  · rw [hd] at hc
    obtain rfl := Option.some.inj hc
    exact ⟨[], by rw [Leaf.text, Char.toString, String.toList_singleton]⟩
  · rw [hd] at hnone
    cases hnone

/-! ## Lifetimes -/

theorem singleLength_eq_none {c : Char} {cs : List Char} (hc : c ≠ '\\')
    (hcs : cs.head? ≠ some '\'') : Literal.singleLength .text ('\'' :: c :: cs) = none := by
  unfold Literal.singleLength
  split
  · next h => exact absurd (List.cons.inj (List.cons.inj h).2).1 hc
  · next h =>
      obtain rfl := (List.cons.inj (List.cons.inj h).2).2
      exact absurd rfl hcs
  · rfl

theorem length?_quote (cs : List Char) :
    Literal.length? ('\'' :: cs) = none ↔ Literal.singleLength .text ('\'' :: cs) = none := by
  have hnumber : Literal.numberLength ('\'' :: cs) = none :=
    numberLength_of_not_digit (by decide)
  have hplaceholder : Literal.placeholderLength ('\'' :: cs) = none :=
    placeholderLength_of_ne (by decide)
  have hquoted : Literal.quotedLength ('\'' :: cs) = Literal.singleLength .text ('\'' :: cs) := rfl
  unfold Literal.length?
  rw [hquoted, hnumber, hplaceholder]
  cases Literal.singleLength .text ('\'' :: cs) <;> simp

/-- The mark of a lifetime is read as one. -/
theorem head_lifetime {cs : List Char} (hlifetime : isLifetime cs = true)
    (hliteral : Literal.length? ('\'' :: cs) = none) :
    head '\'' cs = .lexeme (.leaf (.punct '\'' true)) 0 := by
  refine head_eq_leaf (commentLength_of_ne (by decide)) (by decide) (doc?_of_ne (by decide))
    (n := 1) ?_
  have hpunct : punct? ('\'' :: cs) = some '\'' :=
    punct?_of_noComment (noComment_of_ne (by decide)) (by decide)
  unfold leaf?
  rw [hliteral, hpunct]
  exact if_pos hlifetime

theorem isLifetime_cons {cs : List Char} (h : isLifetime cs = true) :
    ∃ e es, cs = e :: es ∧ isIdentStart e = true := by
  have hraw : (rawIdentLength cs).isSome := by
    unfold isLifetime at h
    split at h
    · cases h
    · next hraw => exact Option.isSome_of_eq_some hraw
  unfold rawIdentLength at hraw
  split at hraw
  · exact ⟨_, _, rfl, by decide⟩
  · cases cs with
    | nil => cases hraw
    | cons e es =>
        rw [identLength] at hraw
        split at hraw
        · next he => exact ⟨e, es, rfl, he⟩
        · cases hraw

/-- The mark of a lifetime is read again in front of a word. -/
theorem joins_word {c : Char} {w : List Char} (h : isName (String.ofList (c :: w)) = true)
    (hw : w.head? ≠ some '\'') (hc : c ≠ '\\') :
    Joins '\'' (.ident (String.ofList (c :: w))) := by
  unfold Joins
  rw [if_pos rfl]
  refine ⟨fun _ _ => nofun, fun rest hrest => ?_⟩
  rw [Leaf.text, String.toList_ofList]
  refine head_lifetime ?_ ((length?_quote _).mpr (singleLength_eq_none hc ?_))
  · -- the word is measured to its end, where the text breaks off
    obtain ⟨hlength, -⟩ := identLength?_word h hrest
    unfold identLength? at hlength
    obtain ⟨-, hlength⟩ := Option.ite_none_left_eq_some.mp hlength
    unfold isLifetime
    rw [List.cons_append, hlength]
    dsimp only
    rw [← List.cons_append, ← List.length_cons (a := c), List.drop_left]
    cases rest with
    | nil => rfl
    | cons d ds =>
        have hd := isBreak_spec (hrest d rfl)
        rw [List.head?_cons]
        split
        · next h => exact absurd (Option.some.inj h) hd.2.2.2.1
        · next h => exact absurd (Option.some.inj h) hd.2.2.2.2.1
        · rfl
  · cases w with
    | nil =>
        intro h
        exact (isBreak_spec (hrest _ h)).2.2.2.1 rfl
    | cons d w => exact hw

/-- Letters are measured within a literal that begins with them. -/
theorem rawIdentLength_quoted {c : Char} {u : List Char} (hc : isIdentStart c = true)
    (hquoted : Literal.quotedLength (c :: u) = some (c :: u).length)
    (hraw : ∀ ds, c :: u ≠ 'r' :: '#' :: ds) :
    ∃ n < (c :: u).length, ∀ more, rawIdentLength (c :: u ++ more) = some n := by
  -- without a mark it were a word and no literal
  obtain ⟨q, hq, hmark⟩ : ∃ q ∈ u, isIdentContinue q ≠ true := by
    by_contra hno
    simp only [not_exists, not_and, not_not] at hno
    have hnone := quotedLength_word hc hno clear_nil
    rw [List.append_nil, hquoted] at hnone
    cases hnone
  have hle : (u.takeWhile isIdentContinue).length < u.length := by
    refine Nat.lt_of_le_of_ne (List.takeWhile_prefix _).length_le fun heq => hmark ?_
    have hall := List.takeWhile_eq_self_iff.mp ((List.takeWhile_prefix _).eq_of_length heq)
    exact hall q hq
  have hcut : ∀ more, (u ++ more).takeWhile isIdentContinue = u.takeWhile isIdentContinue := by
    intro more
    rw [List.takeWhile_append, if_neg (Nat.ne_of_lt hle)]
  refine ⟨_, Nat.succ_lt_succ hle, fun more => ?_⟩
  rw [List.cons_append]
  unfold rawIdentLength
  split
  · next ds h =>
      cases u with
      | nil => cases hq
      | cons d u =>
          injection h with hr h
          injection h with hd
          exact absurd (by rw [hr, hd]) (hraw u)
  · rw [identLength, if_pos hc, hcut]

/-- The mark of a lifetime is read again in front of a literal that begins with a letter. -/
theorem joins_literal {c : Char} {u more : List Char} (hc : isIdentStart c = true)
    (hquoted : Literal.quotedLength (c :: u) = some (c :: u).length)
    (hlifetime : isLifetime (c :: u ++ more) = true) (hu : u.head? ≠ some '\'') (hslash : c ≠ '\\')
    (v : List Char) : Joins '\'' (.literal (String.ofList (c :: u ++ v))) := by
  unfold Joins
  rw [if_pos rfl]
  refine ⟨fun _ _ => nofun, fun rest hrest => ?_⟩
  rw [Leaf.text, String.toList_ofList, List.append_assoc]
  -- behind the mark of a raw string there is no word
  have hraw : ∀ ds, c :: u ≠ 'r' :: '#' :: ds := by
    intro ds h
    rw [h] at hquoted hlifetime
    have hnone : identLength (ds ++ more) = none := by
      cases ds with
      | nil => cases hquoted
      | cons d ds =>
          have hd : d = '#' ∨ d = '"' := by
            by_contra hno
            rw [not_or] at hno
            obtain ⟨m, hm, -⟩ := Option.map_eq_some_iff.mp
              (show (Literal.rawLength .text ('#' :: d :: ds)).map (· + 1) = _ from hquoted)
            simp [Literal.rawLength, hno.1, hno.2, Literal.maxHashes] at hm
          rcases hd with rfl | rfl
          · rfl
          · rfl
    have hraw : rawIdentLength ('r' :: '#' :: ds ++ more) = none := by
      rw [List.cons_append, List.cons_append, rawIdentLength, hnone]
      rfl
    unfold isLifetime at hlifetime
    rw [hraw] at hlifetime
    cases hlifetime
  obtain ⟨n, hn, hlength⟩ := rawIdentLength_quoted hc hquoted hraw
  cases u with
  | nil =>
      have hnone := quotedLength_word (w := []) hc (fun _ h => absurd h List.not_mem_nil) clear_nil
      rw [List.append_nil, hquoted] at hnone
      cases hnone
  | cons d u =>
      have hopening : ∀ more, ['r', '#'].isPrefixOf (c :: d :: u ++ more) = false := by
        intro more
        rw [← Bool.not_eq_true]
        intro h
        obtain ⟨tail, htail⟩ := List.isPrefixOf_iff_prefix.mp h
        injection htail with hr htail
        injection htail with hd
        exact hraw u (by rw [hr, hd])
      have hdrop : ∀ more, ((c :: d :: u ++ more).drop n).head? =
          ((c :: d :: u).drop n).head? := by
        intro more
        obtain ⟨x, xs, hx⟩ := List.exists_cons_of_ne_nil
          (List.drop_eq_nil_iff.not.mpr (Nat.not_le_of_lt hn))
        rw [List.drop_append_of_le_length hn.le, hx]
        rfl
      refine head_lifetime ?_ ((length?_quote _).mpr (singleLength_eq_none hslash hu))
      unfold isLifetime at hlifetime ⊢
      rw [hlength] at hlifetime ⊢
      dsimp only at hlifetime ⊢
      rw [hdrop, hopening] at hlifetime ⊢
      exact hlifetime

/-- Behind the mark of a lifetime stands a word or a literal, and the mark is read again in front of
it. -/
theorem scan_lifetime {p : Position} {cs : List Char} (hlifetime : isLifetime cs = true)
    (hliteral : Literal.length? ('\'' :: cs) = none)
    (hstuck : (Scan.scanFrom p cs).stuck = none) :
    ∃ token placed, (Scan.scanFrom p cs).lexemes = (.leaf token, p) :: placed ∧
      Joins '\'' token := by
  obtain ⟨e, es, rfl, he⟩ := isLifetime_cons hlifetime
  have hspecial := not_isSpecial_of_isIdentContinue (isIdentContinue_of_isIdentStart he)
  have hne : ∀ d, isSpecial d = true → e ≠ d := by
    rintro d hd rfl
    rw [hd] at hspecial
    cases hspecial
  have hgap : isGap e = false := by
    unfold isSpecial at hspecial
    rw [Bool.or_eq_false_iff, Bool.or_eq_false_iff] at hspecial
    exact hspecial.1.1
  have hslash : e ≠ '\\' := by
    rintro rfl
    exact absurd he (by decide)
  have hopening : Delimiter.opening? e = none := by
    unfold Delimiter.opening?
    split
    · exact absurd rfl (hne _ (by decide))
    · exact absurd rfl (hne _ (by decide))
    · exact absurd rfl (hne _ (by decide))
    · rfl
  have hclosing : Delimiter.closing? e = none := by
    unfold Delimiter.closing?
    split
    · exact absurd rfl (hne _ (by decide))
    · exact absurd rfl (hne _ (by decide))
    · exact absurd rfl (hne _ (by decide))
    · rfl
  obtain ⟨token, n, placed, hleaf, hlexemes⟩ := scan_leaf (commentLength_of_ne (hne _ (by decide)))
    hgap (doc?_of_ne (hne _ (by decide))) hopening hclosing hstuck
  have hpunct : punct? (e :: es) = none := punct?_of_not_special hspecial
  have hhead : es.head? ≠ some '\'' := by
    intro h
    obtain ⟨tail, rfl⟩ := List.head?_eq_some_iff.mp h
    have hnone := (length?_quote _).mp hliteral
    unfold Literal.singleLength at hnone
    split at hnone
    · next h => exact hslash (List.cons.inj (List.cons.inj h).2).1
    · cases hnone
    · next h => exact h e tail rfl
  refine ⟨token, placed, hlexemes, ?_⟩
  rcases leaf?_cases hleaf with ⟨hlength, rfl⟩ | ⟨-, -, ⟨hquote, -, rfl⟩ | ⟨c, hc, -, rfl⟩⟩ |
    ⟨-, hident, rfl⟩
  · -- no number begins with a letter, and neither does the placeholder
    rcases Literal.length?_cases hlength with ⟨m, hm, rfl⟩ | hnumber | ⟨tail, h, -⟩
    · obtain ⟨u, tail, hcs, rfl, hu⟩ := Literal.ends_quotedLength _ m hm
      have hself := hu []
      rw [List.append_nil] at hself
      cases u with
      | nil => cases hself
      | cons c u =>
          injection hcs with he' hes
          have hes : es = u ++ tail := hes
          subst he' hes
          rw [← List.cons_append, List.drop_left, List.take_length_add_append]
          refine joins_literal he hself hlifetime (fun h => hhead ?_) hslash _
          rw [List.head?_append, h]
          rfl
    · rw [numberLength_of_not_digit (not_isDigit_of_isIdentStart he)] at hnumber
      cases hnumber
    · exact absurd (List.cons.inj h).1 (hne _ (by decide))
  · rw [hpunct] at hquote
    cases hquote
  · rw [hpunct] at hc
    cases hc
  · have hname := isName_of_identLength? hident
    cases n with
    | zero => exact absurd (show isName (String.ofList []) = true from hname) (by decide)
    | succ m =>
        rw [List.take_succ_cons] at hname ⊢
        refine joins_word hname (fun h => hhead ?_) hslash
        cases m with
        | zero => cases h
        | succ m =>
            rwa [List.head?_take, if_neg (Nat.succ_ne_zero m)] at h

/-- A leaf that was read is read again. -/
theorem link_of_leaf? {p : Position} {c : Char} {cs : List Char} {token : Leaf} {n : Nat}
    (h : leaf? (c :: cs) = some (token, n)) (hcomment : commentLength (c :: cs) = none)
    (hstuck : (Scan.scanFrom p (cs.drop (n - 1))).stuck = none) :
    Link (.leaf token)
      ((Scan.scanFrom p (cs.drop (n - 1))).lexemes.flatMap (TokenTree.spelled ·.1)) := by
  rcases leaf?_cases h with ⟨hlength, rfl⟩ | ⟨hnone, rfl, ⟨hquote, hlifetime, rfl⟩ | ⟨d, hd, hne, rfl⟩⟩ |
    ⟨-, hident, rfl⟩
  · show Literal.length? _ = _
    rw [String.toList_ofList, (Literal.length?_take hlength).2,
      List.length_take_of_le (Literal.length?_take hlength).1]
  · obtain ⟨ds, hcs, -⟩ := punct?_eq_some hquote
    obtain ⟨rfl, rfl⟩ := List.cons.inj hcs
    obtain ⟨token, placed, hlexemes, hjoins⟩ := scan_lifetime hlifetime hnone hstuck
    refine ⟨by decide, token, placed.flatMap (TokenTree.spelled ·.1), ?_, hjoins⟩
    rw [show cs.drop (1 - 1) = ('\'' :: cs).drop 1 from rfl, hlexemes, List.flatMap_cons]
    rfl
  · obtain ⟨ds, hcs, hpunct, hcomment⟩ := punct?_eq_some hd
    obtain ⟨rfl, rfl⟩ := List.cons.inj hcs
    cases hnext : punct? ((c :: cs).drop 1) with
    | none => exact ⟨hpunct, hne⟩
    | some d =>
        obtain ⟨token, placed, hlexemes, ds, hds⟩ := scan_punct hnext hstuck
        obtain ⟨tail, htail, hpunct', -⟩ := punct?_eq_some hnext
        refine ⟨hpunct, token, placed.flatMap (TokenTree.spelled ·.1), ?_, ?_⟩
        · rw [show cs.drop (1 - 1) = (c :: cs).drop 1 from rfl, hlexemes, List.flatMap_cons]
          rfl
        · unfold Joins
          rw [if_neg hne]
          refine ⟨d, ds, hds, hpunct', fun hslash => ?_⟩
          exact hcomment hslash d (by rw [show cs = d :: tail from htail]; rfl)
  · exact isName_of_identLength? hident

/-! ## Lexemes that are read again -/

/-- The attribute that a documentation comment stands for is read again. -/
theorem chain_doc (inner : Bool) (text : String) {ls : List Lexeme} (h : Chain ls) :
    Chain (TokenTree.spelled (.doc inner text) ++ ls) := by
  have hcontent : Chain ([.opening .bracket, .leaf (.ident "doc"), .leaf (.punct '=' false),
      .leaf (.literal (literalText text)), .closing .bracket] ++ ls) :=
    ⟨trivial, by show isName "doc" = true; decide, ⟨by decide, by decide⟩,
      Literal.length?_literalText text, trivial, h⟩
  rw [← TokenTree.flats_ofDoc inner text Position.start]
  cases inner with
  | false => exact ⟨⟨by decide, by decide⟩, hcontent⟩
  | true => exact ⟨⟨by decide, by decide⟩, ⟨by decide, by decide⟩, hcontent⟩

/-- What is scanned to the end of a text is read again. -/
theorem chain_scan {p : Position} {cs : List Char} (h : (Scan.scanFrom p cs).stuck = none) :
    Chain ((Scan.scanFrom p cs).lexemes.flatMap (TokenTree.spelled ·.1)) := by
  fun_induction Scan.scanFrom p cs with
  | case1 => trivial
  | case2 => cases h
  | case3 p c cs more hhead ih => exact ih h
  | case4 p c cs lexeme more hhead ih =>
      show Chain (TokenTree.spelled lexeme ++ _)
      have hrest := ih h
      rcases head_cases hhead with ⟨inner, text, rfl⟩ |
        ⟨token, n, rfl, hleaf, rfl, hcomment, -, -⟩ | ⟨delimiter, rfl⟩ | ⟨delimiter, rfl⟩
      · exact chain_doc inner text hrest
      · exact ⟨link_of_leaf? hleaf hcomment h, hrest⟩
      · exact ⟨trivial, hrest⟩
      · exact ⟨trivial, hrest⟩

end Lexeme

/-- What is read from a text is read again. -/
theorem TokenTree.chain_of_parse {source : String} {trees : List TokenTree}
    (h : TokenTree.parse source = .ok trees) : Lexeme.Chain (TokenTree.flats trees) := by
  have hscan : ∃ p cs, Scan.scan source = Scan.scanFrom p cs := by
    unfold Scan.scan
    split
    · split
      · exact ⟨_, _, rfl⟩
      · exact ⟨_, _, rfl⟩
    · exact ⟨_, _, rfl⟩
  obtain ⟨p, cs, hscan⟩ := hscan
  unfold TokenTree.parse at h
  obtain ⟨hstuck, hflats⟩ := TokenTree.flats_assemble h
  rw [hscan] at hstuck hflats
  rw [hflats]
  simp only [openedBy, List.reverse_nil, flats_nil, List.nil_append]
  exact Lexeme.chain_scan hstuck

/-! ## Printing -/

/-- A text before which printed trees may end: a blank or a closing delimiter comes first. -/
def Closed (cs : List Char) : Prop :=
  ∀ c ∈ cs.head?, " \n)]".toList.contains c = true

theorem closed_cons {c : Char} {cs : List Char} (h : " \n)]".toList.contains c = true) :
    Closed (c :: cs) := by
  intro d hd
  rw [List.head?_cons, Option.mem_some_iff] at hd
  exact hd ▸ h

namespace Closed

variable {rest : List Char} (h : Closed rest)

include h

theorem head_cases {c : Char} (hc : c ∈ rest.head?) : c = ' ' ∨ c = '\n' ∨ c = ')' ∨ c = ']' := by
  have hmem := List.contains_iff_mem.mp (h c hc)
  simpa [show " \n)]".toList = [' ', '\n', ')', ']'] from rfl] using hmem

theorem clear : Clear rest := by
  intro c hc
  rcases h.head_cases hc with rfl | rfl | rfl | rfl <;> decide

theorem punct? : Lexeme.punct? rest = none := by
  cases rest with
  | nil => rfl
  | cons c cs => rcases h.head_cases rfl with rfl | rfl | rfl | rfl <;> rfl

theorem noComment (c : Char) : Lexeme.NoComment c rest := by
  intro _ d hd
  rcases h.head_cases hd with rfl | rfl | rfl | rfl <;> decide

end Closed

namespace Lexeme

/-- A literal in front of a break is read as one. -/
theorem head_literal {c : Char} {w rest : List Char}
    (h : Literal.length? (c :: w) = some (c :: w).length) (hrest : Clear rest) :
    head c (w ++ rest) = .lexeme (.leaf (.literal (String.ofList (c :: w)))) w.length := by
  have hne : ∀ d, isSpecial d = true → d ≠ '\'' → d ≠ '"' → d ≠ '(' → c ≠ d := by
    rintro d hd hsingle hdouble hopen rfl
    rw [length?_of_isSpecial hd hsingle hdouble hopen] at h
    cases h
  have hslash := hne '/' (by decide) (by decide) (by decide) (by decide)
  have hgap : isGap c = false := by
    rw [← Bool.not_eq_true]
    intro hgap
    refine hne c ?_ ?_ ?_ ?_ rfl
    · unfold isSpecial
      rw [hgap, Bool.true_or, Bool.true_or]
    · rintro rfl
      exact absurd hgap (by decide)
    · rintro rfl
      exact absurd hgap (by decide)
    · rintro rfl
      exact absurd hgap (by decide)
  have hlength := Literal.length?_append h hrest
  refine head_eq_leaf (commentLength_of_ne hslash) hgap (doc?_of_ne hslash)
    (n := (c :: w).length) ?_
  unfold leaf?
  rw [← List.cons_append, hlength]
  dsimp only
  rw [List.take_left]

/-- An opening parenthesis in front of anything but a comment. -/
theorem head_openParen {cs : List Char} (h : ∀ ds, cs ≠ '/' :: '*' :: ds) :
    head '(' cs = .lexeme (.opening .parenthesis) 0 := by
  have hplaceholder : Literal.placeholderLength ('(' :: cs) = none := by
    unfold Literal.placeholderLength
    refine if_neg fun hopening => ?_
    obtain ⟨tail, htail⟩ := List.isPrefixOf_iff_prefix.mp hopening
    exact h _ (List.cons.inj htail).2.symm
  have hleaf : leaf? ('(' :: cs) = none := by
    unfold leaf? Literal.length?
    rw [quotedLength_of_isSpecial (by decide) (by decide) (by decide),
      numberLength_of_not_digit (by decide), hplaceholder,
      identLength?_of_isSpecial (by decide)]
    rfl
  unfold head
  rw [commentLength_of_ne (by decide), doc?_of_ne (by decide), hleaf]
  rfl

/-- A leaf that is read again is not empty, and begins with a slash only if it is that slash. -/
theorem text_of_link {token : Leaf} {ls : List Lexeme} (h : Link (.leaf token) ls) :
    ∃ d ds, token.text.toList = d :: ds ∧
      (d = '/' → ds = [] ∧ ∃ joint, token = .punct '/' joint) := by
  cases token with
  | ident text =>
      have h : isName text = true := h
      rw [← String.ofList_toList (s := text)] at h
      rcases isName_iff.mp h with ⟨d, ds, htext, hd, -⟩ | ⟨d, ds, htext, -⟩
      · refine ⟨d, ds, htext, ?_⟩
        rintro rfl
        exact absurd hd (by decide)
      · exact ⟨'r', _, htext, fun h => absurd h (by decide)⟩
  | literal text =>
      have h : Literal.length? text.toList = some text.toList.length := h
      rw [Leaf.text]
      generalize text.toList = cs at h
      cases cs with
      | nil => cases h
      | cons d ds =>
          refine ⟨d, ds, rfl, ?_⟩
          rintro rfl
          rw [length?_of_isSpecial (by decide) (by decide) (by decide) (by decide)] at h
          cases h
  | punct c joint =>
      refine ⟨c, [], ?_, ?_⟩
      · rw [Leaf.text, Char.toString, String.toList_singleton]
      · rintro rfl
        exact ⟨rfl, joint, rfl⟩

end Lexeme

namespace TokenTree

open Lexeme

theorem toList_texts_leaf (sep : String) (token : Leaf) (p : Position) (ts : List TokenTree) :
    (texts sep (leaf token p :: ts)).toList = sep.toList ++ (token.text.toList ++
      (texts (if (leaf token p).isJoint then "" else " ") ts).toList) := by
  rw [texts, text, String.toList_append, String.toList_append, List.append_assoc]

/-- The tree that the next leaf is. -/
theorem eq_leaf_of_flats {ts : List TokenTree} {ms ls : List Lexeme} {token : Leaf}
    (hms : ∀ token, ms.head? ≠ some (.leaf token)) (h : flats ts ++ ms = .leaf token :: ls) :
    ∃ p ts', ts = leaf token p :: ts' := by
  cases ts with
  | nil =>
      rw [flats_nil, List.nil_append] at h
      exact absurd (by rw [h]; rfl) (hms token)
  | cons t ts =>
      cases t with
      | leaf other p =>
          rw [flats_cons, flat_leaf] at h
          obtain rfl := Lexeme.leaf.inj (List.cons.inj h).1
          exact ⟨p, ts, rfl⟩
      | group =>
          rw [flats_cons, flat_group] at h
          cases (List.cons.inj h).1

theorem closed_texts {rest : List Char} (hrest : Closed rest) (ts : List TokenTree) :
    Closed ((texts " " ts).toList ++ rest) := by
  cases ts with
  | nil =>
      rw [texts, String.toList_empty]
      exact hrest
  | cons t ts =>
      rw [texts, String.toList_append, String.toList_append, List.append_assoc, List.append_assoc]
      exact closed_cons (by decide)

/-- In the text of trees that are read again no comment begins. -/
theorem noComment_texts {ts : List TokenTree} {ms : List Lexeme} {rest : List Char}
    (hms : ∀ token, ms.head? ≠ some (.leaf token)) (h : Chain (flats ts ++ ms))
    (hrest : Closed rest) {d : Char} {ds : List Char}
    (htext : (texts "" ts).toList ++ rest = d :: ds) : NoComment d ds := by
  cases ts with
  | nil =>
      rw [texts, String.toList_empty, List.nil_append] at htext
      subst htext
      rcases hrest.head_cases rfl with rfl | rfl | rfl | rfl <;> exact noComment_of_ne (by decide)
  | cons t ts =>
      cases t with
      | group delimiter opened closed body =>
          rw [texts, text] at htext
          refine noComment_of_ne ?_
          rintro rfl
          cases delimiter <;> simp [delimited] at htext
      | leaf token p =>
          rw [flats_cons, flat_leaf] at h
          obtain ⟨hlink, h⟩ := h
          obtain ⟨e, es, he, hslash⟩ := text_of_link hlink
          rw [toList_texts_leaf, String.toList_empty, List.nil_append, he, List.cons_append,
            List.cons_append] at htext
          obtain ⟨rfl, rfl⟩ := List.cons.inj htext
          intro hslash'
          obtain ⟨rfl, joint, rfl⟩ := hslash hslash'
          rw [List.nil_append]
          cases joint with
          | false => exact (closed_texts hrest ts).noComment '/' rfl
          | true =>
              obtain ⟨-, token, ls, hnext, hjoins⟩ := hlink
              obtain ⟨q, ts', rfl⟩ := eq_leaf_of_flats hms hnext
              unfold Joins at hjoins
              rw [if_neg (by decide)] at hjoins
              obtain ⟨e, es, he, -, hne⟩ := hjoins
              intro f hf
              rw [show (leaf (.punct '/' true) p).isJoint = true from rfl, if_pos rfl,
                toList_texts_leaf, he] at hf
              obtain rfl := Option.some.inj hf
              exact hne rfl

/-- Trees in delimiters are scanned as a group. -/
theorem lexes_group (delimiter : Delimiter) {body : List TokenTree}
    (hbody : ∀ {rest}, Closed rest → Lexes ((texts "" body).toList ++ rest) (flats body) rest)
    (hcomment : ∀ {rest}, Closed rest → ∀ ds, (texts "" body).toList ++ rest ≠ '/' :: '*' :: ds)
    (opened closed : Position) (rest : List Char) :
    Lexes ((text (group delimiter opened closed body)).toList ++ rest)
      (flat (group delimiter opened closed body)) rest := by
  rw [text, flat_group]
  cases delimiter with
  | parenthesis =>
      have hclose : Closed (')' :: rest) := closed_cons (by decide)
      have hopen := Lexes.lexeme (head_openParen (hcomment hclose))
      have hall := hopen.trans ((hbody hclose).trans (.closing (c := ')') rfl (.refl rest)))
      simpa [delimited] using hall
  | bracket =>
      have hclose : Closed (']' :: rest) := closed_cons (by decide)
      have hall := Lexes.opening (c := '[') rfl (by decide)
        ((hbody hclose).trans (.closing (c := ']') rfl (.refl rest)))
      simpa [delimited] using hall
  | brace =>
      have hend := Lexes.closing (c := '\x7d') rfl (.refl rest)
      cases body with
      | nil =>
          have hall := Lexes.opening (c := '\x7b') rfl (by decide) (.blank (c := ' ') (by decide) hend)
          simpa [delimited, texts] using hall
      | cons t ts =>
          have hclose : Closed (' ' :: '\x7d' :: rest) := closed_cons (by decide)
          have hall := Lexes.opening (c := '\x7b') rfl (by decide) (.blank (c := ' ') (by decide)
            ((hbody hclose).trans (.blank (by decide) hend)))
          simpa [delimited] using hall

/-- A leaf in front of what is printed behind it. -/
theorem lexes_leaf {token : Leaf} {p : Position} {ts : List TokenTree} {ms : List Lexeme}
    {rest : List Char} (hms : ∀ token, ms.head? ≠ some (.leaf token))
    (h : Chain (.leaf token :: (flats ts ++ ms))) (hrest : Closed rest) :
    Lexes (token.text.toList ++
        ((texts (if (leaf token p).isJoint then "" else " ") ts).toList ++ rest)) [.leaf token]
      ((texts (if (leaf token p).isJoint then "" else " ") ts).toList ++ rest) := by
  obtain ⟨hlink, h⟩ := h
  cases token with
  | ident text =>
      have hclear := (closed_texts hrest ts).clear
      have hword := Lexes.word (w := text.toList) (by rwa [String.ofList_toList]) hclear (.refl _)
      rw [String.ofList_toList] at hword
      exact hword
  | literal text =>
      have hclear := (closed_texts hrest ts).clear
      have hlink : Literal.length? text.toList = some text.toList.length := hlink
      show Lexes (text.toList ++ _) [.leaf (.literal text)] _
      rw [← String.ofList_toList (s := text)]
      generalize text.toList = w at hlink
      rw [String.toList_ofList]
      cases w with
      | nil => cases hlink
      | cons c w => exact Lexes.cons (head_literal hlink hclear) (.refl _)
  | punct c joint =>
      rw [Leaf.text, Char.toString, String.toList_singleton, List.singleton_append]
      cases joint with
      | false =>
          have hclosed := closed_texts hrest ts
          have hpunct := Lexes.punct hlink.1 hlink.2 (hclosed.noComment c) (.refl _)
          rw [hclosed.punct?] at hpunct
          exact hpunct
      | true =>
          obtain ⟨hpunct, token, ls, hnext, hjoins⟩ := hlink
          obtain ⟨q, ts, rfl⟩ := eq_leaf_of_flats hms hnext
          rw [show (leaf (.punct c true) p).isJoint = true from rfl, if_pos rfl]
          unfold Joins at hjoins
          split at hjoins
          · next hquote =>
              subst hquote
              have hspace : (leaf token q).isJoint = false := by
                cases token with
                | punct d joint => exact absurd rfl (hjoins.1 d joint)
                | _ => rfl
              have hhead := hjoins.2 _ (closed_texts hrest ts).clear
              rw [toList_texts_leaf, hspace, String.toList_empty, List.nil_append,
                List.append_assoc]
              exact Lexes.lexeme hhead
          · next hquote =>
              obtain ⟨d, ds, htext, hd, hslash⟩ := hjoins
              have hnoComment := @noComment_texts _ ms rest hms h hrest d
              rw [toList_texts_leaf, htext, String.toList_empty, List.nil_append,
                List.cons_append, List.cons_append] at hnoComment ⊢
              have hnext := punct?_of_noComment (hnoComment rfl) hd
              have hjoint : NoComment c (d :: (ds ++
                  (texts (if (leaf token q).isJoint then "" else " ") ts).toList ++ rest)) := by
                intro hc e he
                obtain rfl := Option.some.inj he
                exact hslash hc
              have hall := Lexes.punct hpunct hquote hjoint (.refl _)
              rw [hnext] at hall
              exact hall

theorem lexes_separator {sep : String} (hsep : sep = "" ∨ sep = " ") {cs rest : List Char}
    {ls : List Lexeme} (h : Lexes cs ls rest) : Lexes (sep.toList ++ cs) ls rest := by
  rcases hsep with rfl | rfl
  · exact h
  · exact .blank (by decide) h

/-- Trees that are read again are printed as a text that is scanned as their lexemes. -/
theorem lexes_texts : ∀ (ts : List TokenTree) {sep : String} {ms : List Lexeme}
    {rest : List Char}, sep = "" ∨ sep = " " → (∀ token, ms.head? ≠ some (.leaf token)) →
      Chain (flats ts ++ ms) → Closed rest → Lexes ((texts sep ts).toList ++ rest) (flats ts) rest
  | [], sep, ms, rest, hsep, hms, h, hrest => by
      rw [texts, String.toList_empty]
      exact .refl rest
  | .leaf token p :: ts, sep, ms, rest, hsep, hms, h, hrest => by
      rw [flats_cons, flat_leaf, List.singleton_append, List.cons_append] at h
      rw [toList_texts_leaf, List.append_assoc, List.append_assoc, flats_cons, flat_leaf]
      refine lexes_separator hsep ((lexes_leaf hms h hrest).trans ?_)
      exact lexes_texts ts (by cases (leaf token p).isJoint <;> simp) hms h.2 hrest
  | .group delimiter opened closed body :: ts, sep, ms, rest, hsep, hms, h, hrest => by
      have hbody : Chain (flats body ++ .closing delimiter :: (flats ts ++ ms)) := by
        rw [flats_cons, flat_group] at h
        simpa using h.2
      have hts : Chain (flats ts ++ ms) := by
        rw [flats_cons, List.append_assoc] at h
        exact h.right
      have hend : ∀ token, (Lexeme.closing delimiter :: (flats ts ++ ms)).head? ≠
          some (.leaf token) := by
        intro token h
        cases Option.some.inj h
      have hgroup := lexes_group delimiter
        (fun hrest => lexes_texts body (.inl rfl) hend hbody hrest)
        (fun hrest ds htext => (noComment_texts hend hbody hrest htext rfl '*' rfl).2 rfl)
        opened closed ((texts " " ts).toList ++ rest)
      rw [texts, String.toList_append, String.toList_append, List.append_assoc, List.append_assoc,
        flats_cons]
      exact lexes_separator hsep (hgroup.trans (lexes_texts ts (.inr rfl) hms hts hrest))
termination_by ts => sizes ts
decreasing_by all_goals simp [sizes, size]; try omega

end TokenTree

end GrammarCompiler
