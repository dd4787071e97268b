import GrammarCompiler.Proofs.TokenTree.Replayed
import GrammarCompiler.Recursion.Analysis

/-!
# Trees with marks

An alternative of a left-recursive rule is written out anew with marks behind its references: options
that name the token each of them came from. `Inked` relates trees, marks included, to the text that
they are written as, and such a text is scanned as the lexemes of trees alike
(`Inked.exists_lexes`).

A mark stands right behind what it belongs to, so it stands only behind words, literals, arguments
and dots. A dot becomes joint by its mark.
-/

namespace GrammarCompiler

open Text (Position isName Clear clear_cons)
open TokenTree (leaf group flats Alike startsWithPunct)

/-! ## Marks -/

def entriesText (entries : List (String × String)) : String :=
  ",".intercalate (entries.map fun (key, value) => key ++ "=" ++ value)

/-- Options as they are written; nothing if there are none. -/
def markText (entries : List (String × String)) : String :=
  if entries.isEmpty then "" else "<" ++ entriesText entries ++ ">"

/-- A text that is scanned as one literal and stands for no text of its own. -/
def IsBareLiteral (text : String) : Prop :=
  Literal.length? text.toList = some text.toList.length ∧ Literal.value? text = none

/-- The value of an option behind its sign. The flag tells whether the sign is joint with it, as it is
with the punctuation that follows if there is no value. -/
inductive ValuePrinted : String → Bool → List TokenTree → Prop
  | nothing : ValuePrinted "" true []
  | word {text : String} : isName text = true →
      ValuePrinted text false [leaf (.ident text) .start]
  | literal {text : String} : IsBareLiteral text →
      ValuePrinted text (Lexeme.punct? text.toList).isSome [leaf (.literal text) .start]
  | negative {text : String} : IsBareLiteral text → Literal.isNumber text = true →
      ValuePrinted ("- " ++ text) true
        [leaf (.punct '-' false) .start, leaf (.literal text) .start]

/-- Options behind their opening bracket, together with the closing one. -/
inductive EntriesPrinted : List (String × String) → List TokenTree → Prop
  | last {key value : String} {joint : Bool} {ts : List TokenTree} : isName key = true →
      ValuePrinted value joint ts → EntriesPrinted [(key, value)]
        (leaf (.ident key) .start :: leaf (.punct '=' joint) .start ::
          (ts ++ [leaf (.punct '>' false) .start]))
  | cons {key value : String} {joint : Bool} {ts us : List TokenTree}
      {entry : String × String} {entries : List (String × String)} : isName key = true →
      ValuePrinted value joint ts → EntriesPrinted (entry :: entries) us →
      EntriesPrinted ((key, value) :: entry :: entries)
        (leaf (.ident key) .start :: leaf (.punct '=' joint) .start ::
          (ts ++ leaf (.punct ',' false) .start :: us))

/-- A mark, which may be empty. -/
inductive MarkPrinted : List (String × String) → List TokenTree → Prop
  | nothing : MarkPrinted [] []
  | options {entries : List (String × String)} {ts : List TokenTree} : EntriesPrinted entries ts →
      MarkPrinted entries (leaf (.punct '<' false) .start :: ts)

namespace Lexeme

/-- Punctuation that begins no comment and no lifetime. -/
def isSign (c : Char) : Bool :=
  punctuation.contains c && c != '\'' && c != '/'

theorem isSign_spec {c : Char} (h : isSign c = true) :
    punctuation.contains c = true ∧ c ≠ '\'' ∧ c ≠ '/' := by
  simpa [isSign, and_assoc] using h

theorem punct?_sign {c : Char} (h : isSign c = true) (cs : List Char) :
    punct? (c :: cs) = some c :=
  punct?_of_noComment (noComment_of_ne (isSign_spec h).2.2) (isSign_spec h).1

theorem lexes_sign {c : Char} (h : isSign c = true) (cs : List Char) :
    Lexes (c :: cs) [.leaf (.punct c (punct? cs).isSome)] cs :=
  .punct (isSign_spec h).1 (isSign_spec h).2.1 (noComment_of_ne (isSign_spec h).2.2) (.refl cs)

theorem lexes_word {text : String} (h : isName text = true) {cs : List Char} (hcs : Clear cs) :
    Lexes (text.toList ++ cs) [.leaf (.ident text)] cs := by
  have hword := Lexes.word (w := text.toList) (by rwa [String.ofList_toList]) hcs (.refl cs)
  rwa [String.ofList_toList] at hword

theorem lexes_literal {text : String} (h : Literal.length? text.toList = some text.toList.length)
    {cs : List Char} (hcs : Clear cs) :
    Lexes (text.toList ++ cs) [.leaf (.literal text)] cs := by
  rw [← String.ofList_toList (s := text)]
  generalize text.toList = w at h
  rw [String.toList_ofList]
  cases w with
  | nil => exact absurd (length_pos_of_length? h) (Nat.lt_irrefl 0)
  | cons c w => exact Lexes.cons (head_literal h hcs) (.refl _)

/-- A word does not begin with punctuation. -/
theorem punct?_word {text : String} (h : isName text = true) (cs : List Char) :
    punct? (text.toList ++ cs) = none := by
  rw [← String.ofList_toList (s := text)] at h
  rcases isName_iff.mp h with ⟨c, w, hw, hc, -⟩ | ⟨c, w, hw, -⟩
  · rw [hw]
    exact punct?_of_not_special
      (Text.not_isSpecial_of_isIdentContinue (Text.isIdentContinue_of_isIdentStart hc))
  · rw [hw]
    exact punct?_of_not_special (by decide)

/-- Whether a literal begins with punctuation does not depend on what follows. -/
theorem punct?_literal {text : String}
    (h : Literal.length? text.toList = some text.toList.length) (cs : List Char) :
    punct? (text.toList ++ cs) = punct? text.toList := by
  cases hw : text.toList with
  | nil =>
      rw [hw] at h
      exact absurd (length_pos_of_length? h) (Nat.lt_irrefl 0)
  | cons c w =>
      have hslash : c ≠ '/' := by
        rintro rfl
        rw [hw, length?_of_isSpecial (by decide) (by decide) (by decide) (by decide)] at h
        cases h
      have hall : ∀ ds, punct? (c :: ds) = if punctuation.contains c then some c else none := by
        intro ds
        unfold punct?
        split
        · next hcs => exact absurd (List.cons.inj hcs).1 hslash
        · next hcs => exact absurd (List.cons.inj hcs).1 hslash
        · next hcs =>
            obtain ⟨rfl, -⟩ := List.cons.inj hcs
            rfl
        · next hcs => cases hcs
      rw [List.cons_append, hall, hall]

end Lexeme

open Lexeme (isSign punct? lexes_sign lexes_word lexes_literal punct?_sign punct?_word punct?_literal)

/-- What is printed behind the sign of an option is scanned, and the sign is joint with it as the flag
tells. -/
theorem ValuePrinted.lexes {value : String} {joint : Bool} {ts : List TokenTree}
    (h : ValuePrinted value joint ts) {c : Char} (hc : c = ',' ∨ c = '>') (cs : List Char) :
    Lexes (value.toList ++ c :: cs) (flats ts) (c :: cs) ∧
      (punct? (value.toList ++ c :: cs)).isSome = joint := by
  have hclear : Clear (c :: cs) := clear_cons (by rcases hc with rfl | rfl <;> decide)
  cases h with
  | nothing =>
      refine ⟨by simpa using Lexes.refl (c :: cs), ?_⟩
      rw [String.toList_empty, List.nil_append, punct?_sign (by rcases hc with rfl | rfl <;> decide)]
      rfl
  | word hname =>
      exact ⟨by simpa using lexes_word hname hclear, by rw [punct?_word hname]; rfl⟩
  | literal hbare =>
      exact ⟨by simpa using lexes_literal hbare.1 hclear, by rw [punct?_literal hbare.1]⟩
  | @negative text hbare hnumber =>
      have hrest := Lexes.blank (c := ' ') (by decide) (lexes_literal hbare.1 hclear)
      have hall := (lexes_sign (c := '-') (by decide) (' ' :: (text.toList ++ c :: cs))).trans hrest
      rw [show punct? (' ' :: (text.toList ++ c :: cs)) = none from rfl] at hall
      rw [String.toList_append, List.append_assoc]
      refine ⟨by simpa using hall, ?_⟩
      rw [show "- ".toList = ['-', ' '] from rfl, List.cons_append, punct?_sign (by decide)]
      rfl

/-- One option and what separates it from what follows. -/
theorem ValuePrinted.lexes_entry {key value : String} {joint : Bool} {ts : List TokenTree}
    (hkey : isName key = true) (h : ValuePrinted value joint ts) {c : Char} (hc : c = ',' ∨ c = '>')
    {cs : List Char} (hcs : punct? cs = none) :
    Lexes (key.toList ++ '=' :: (value.toList ++ c :: cs))
      (flats (leaf (.ident key) .start :: leaf (.punct '=' joint) .start ::
        (ts ++ [leaf (.punct c false) .start]))) cs := by
  obtain ⟨hvalue, hjoint⟩ := h.lexes hc cs
  have hword := lexes_word hkey (show Clear ('=' :: (value.toList ++ c :: cs)) from
    clear_cons (by decide))
  have hassign := lexes_sign (c := '=') (by decide) (value.toList ++ c :: cs)
  have hlast := lexes_sign (c := c) (by rcases hc with rfl | rfl <;> decide) cs
  rw [hjoint] at hassign
  rw [hcs] at hlast
  simpa using hword.trans (hassign.trans (hvalue.trans hlast))

theorem EntriesPrinted.lexes {entries : List (String × String)} {ts : List TokenTree}
    (h : EntriesPrinted entries ts) {rest : List Char} (hrest : Closed rest) :
    Lexes ((entriesText entries).toList ++ '>' :: rest) (flats ts) rest ∧
      punct? ((entriesText entries).toList ++ '>' :: rest) = none := by
  unfold entriesText
  induction h with
  | @last key value joint ts hkey hvalue =>
      rw [List.map_cons, List.map_nil, String.intercalate_singleton]
      refine ⟨by simpa using hvalue.lexes_entry hkey (.inr rfl) hrest.punct?, ?_⟩
      simp only [String.toList_append, List.append_assoc]
      exact punct?_word hkey _
  | @cons key value joint ts us entry entries hkey hvalue hentries ih =>
      rw [List.map_cons, String.intercalate_cons_of_ne_nil (by simp)]
      refine ⟨?_, ?_⟩
      · have hfirst := hvalue.lexes_entry hkey (c := ',') (.inl rfl) ih.2
        simpa using hfirst.trans ih.1
      · simp only [String.toList_append, List.append_assoc]
        exact punct?_word hkey _

/-- What is printed as a mark is scanned as its trees. -/
theorem EntriesPrinted.lexes_mark {entries : List (String × String)} {ts : List TokenTree}
    (h : EntriesPrinted entries ts) {rest : List Char} (hrest : Closed rest) :
    Lexes ((markText entries).toList ++ rest) (flats (leaf (.punct '<' false) .start :: ts)) rest ∧
      ∃ cs, (markText entries).toList ++ rest = '<' :: cs := by
  obtain ⟨hlexes, hhead⟩ := h.lexes hrest
  have hne : entries.isEmpty = false := by cases h <;> rfl
  have hopen := lexes_sign (c := '<') (by decide) ((entriesText entries).toList ++ '>' :: rest)
  rw [hhead] at hopen
  unfold markText
  rw [hne]
  exact ⟨by simpa using hopen.trans hlexes, by simp⟩

/-- Behind a word or a literal a mark is scanned as its trees. -/
theorem MarkPrinted.lexes {entries : List (String × String)} {ts : List TokenTree}
    (h : MarkPrinted entries ts) {rest : List Char} (hrest : Closed rest) :
    Lexes ((markText entries).toList ++ rest) (flats ts) rest ∧
      Clear ((markText entries).toList ++ rest) := by
  cases h with
  | nothing => exact ⟨by simpa [markText] using Lexes.refl rest, by simpa [markText] using hrest.clear⟩
  | options hentries =>
      obtain ⟨hlexes, cs, hcs⟩ := hentries.lexes_mark hrest
      exact ⟨hlexes, hcs ▸ clear_cons (by decide)⟩

/-! ## Trees as they are written -/

/-- Whether a group is printed as a text that is scanned as the group. -/
def IsPrinted (t : TokenTree) : Prop :=
  ∀ rest, Lexes (t.text.toList ++ rest) (TokenTree.flat t) rest

/-- What stands between punctuation and what comes before it. -/
def gap (glue : Bool) : String :=
  if glue then "" else " "

/-- Trees that are written as a text. The first flag tells whether joint punctuation comes before
them, the second whether they end with it. -/
inductive Inked : Bool → List TokenTree → String → Bool → Prop
  | nil (glue : Bool) : Inked glue [] "" glue
  | word {glue glue' : Bool} {word text : String} {p : Position}
      {entries : List (String × String)} {mark ts : List TokenTree} : isName word = true →
      MarkPrinted entries mark → Inked false ts text glue' →
      Inked glue (leaf (.ident word) p :: (mark ++ ts))
        (" " ++ word ++ markText entries ++ text) glue'
  | literal {glue glue' : Bool} {literal text : String} {p : Position}
      {entries : List (String × String)} {mark ts : List TokenTree} :
      Literal.length? literal.toList = some literal.toList.length → MarkPrinted entries mark →
      Inked false ts text glue' → Inked glue (leaf (.literal literal) p :: (mark ++ ts))
        (" " ++ literal ++ markText entries ++ text) glue'
  | sign {glue joint glue' : Bool} {c : Char} {text : String} {p : Position}
      {ts : List TokenTree} : isSign c = true → Inked joint ts text glue' →
      Inked glue (leaf (.punct c joint) p :: ts) (gap glue ++ c.toString ++ text) glue'
  | dot {glue glue' : Bool} {text : String} {p : Position} {entries : List (String × String)}
      {mark ts : List TokenTree} : EntriesPrinted entries mark → Inked false ts text glue' →
      Inked glue (leaf (.punct '.' true) p :: leaf (.punct '<' false) .start :: (mark ++ ts))
        (gap glue ++ "." ++ markText entries ++ text) glue'
  | parenthesis {glue inner glue' : Bool} {content text : String} {opened closed : Position}
      {body ts : List TokenTree} : Inked false body content inner → Inked false ts text glue' →
      Inked glue (group .parenthesis opened closed body :: ts)
        (" (" ++ content ++ " )" ++ text) glue'
  | code {glue glue' : Bool} {delimiter : Delimiter} {opened closed : Position}
      {body : List TokenTree} {text : String} {entries : List (String × String)}
      {mark ts : List TokenTree} : delimiter ≠ .parenthesis →
      IsPrinted (group delimiter opened closed body) → MarkPrinted entries mark →
      Inked false ts text glue' → Inked glue (group delimiter opened closed body :: (mark ++ ts))
        (" " ++ (group delimiter opened closed body).text ++ markText entries ++ text) glue'

/-- The same trees in front of trees alike. -/
theorem TokenTree.Alike.prepend {ts us : List TokenTree} (h : Alike ts us) (vs : List TokenTree) :
    Alike (vs ++ ts) (vs ++ us) := by
  induction vs with
  | nil => exact h
  | cons v vs ih =>
      cases v with
      | group => exact .group _ _ _ _ (.refl _) (fun _ => rfl) ih
      | leaf token =>
          cases token with
          | ident => exact .ident _ _ ih
          | literal => exact .literal _ _ ih
          | punct => exact .punct _ _ (fun _ => rfl) ih

namespace Inked

variable {glue mid glue' : Bool} {ts us : List TokenTree} {text more : String}

theorem append (h : Inked glue ts text mid) (h' : Inked mid us more glue') :
    Inked glue (ts ++ us) (text ++ more) glue' := by
  induction h with
  | nil => simpa using h'
  | word hname hmark _ ih => simpa [String.append_assoc] using Inked.word hname hmark (ih h')
  | literal hlength hmark _ ih =>
      simpa [String.append_assoc] using Inked.literal hlength hmark (ih h')
  | sign hc _ ih => simpa [String.append_assoc] using Inked.sign hc (ih h')
  | dot hmark _ ih => simpa [String.append_assoc] using Inked.dot hmark (ih h')
  | parenthesis hbody _ _ ih =>
      simpa [String.append_assoc] using Inked.parenthesis hbody (ih h')
  | code hdelimiter hprinted hmark _ ih =>
      simpa [String.append_assoc] using Inked.code hdelimiter hprinted hmark (ih h')

/-! ## Scanning -/

variable {rest : List Char}

/-- What is written begins with a blank, unless it is punctuation behind joint punctuation. -/
theorem closed (h : Inked glue ts text glue') (hts : (glue && startsWithPunct ts) = false)
    (hrest : Closed rest) : Closed (text.toList ++ rest) := by
  cases h with
  | nil => simpa using hrest
  | sign | dot =>
      obtain rfl : glue = false := by simpa [startsWithPunct, Leaf.isPunct] using hts
      simp only [gap, Bool.false_eq_true, if_false, String.toList_append, List.append_assoc]
      exact closed_cons (by decide)
  | _ =>
      simp only [String.toList_append, List.append_assoc]
      exact closed_cons (by decide)

/-- Punctuation behind joint punctuation is written right behind it. -/
theorem punct?_isSome (h : Inked true ts text glue') (hts : startsWithPunct ts = true) :
    (punct? (text.toList ++ rest)).isSome = true := by
  cases h with
  | nil => cases hts
  | @sign _ _ _ c more =>
      rw [show gap true = "" from rfl, String.empty_append, Char.toString, String.toList_append,
        String.toList_singleton, List.append_assoc, List.singleton_append, punct?_sign ‹_›]
      rfl
  | dot =>
      simp only [show gap true = "" from rfl, String.empty_append, String.toList_append,
        show ".".toList = ['.'] from rfl, List.append_assoc, List.cons_append]
      rw [punct?_sign (c := '.') (by decide)]
      rfl
  | _ => cases hts

theorem lexes_gap (glue : Bool) {cs : List Char} {ls : List Lexeme} (h : Lexes cs ls rest) :
    Lexes ((gap glue).toList ++ cs) ls rest :=
  TokenTree.lexes_separator (by cases glue <;> simp [gap]) h

theorem eq_nil (h : Inked glue [] text glue') : text = "" ∧ glue' = glue := by
  cases h
  exact ⟨rfl, rfl⟩

/-- What is written is scanned as the lexemes of trees alike, whatever trees stand behind both. -/
theorem exists_lexes (h : Inked glue ts text glue') (hrest : Closed rest) :
    ∃ us, (∀ {vs ws}, (glue' && startsWithPunct vs) = false → Alike vs ws →
        Alike (ts ++ vs) (us ++ ws)) ∧
      Lexes (text.toList ++ rest) (flats us) rest := by
  induction h generalizing rest with
  | nil => exact ⟨[], fun _ h => h, by simpa using Lexes.refl rest⟩
  | @word _ _ word text p entries mark _ hname hmark hts ih =>
      obtain ⟨us, halike, hlexes⟩ := ih hrest
      obtain ⟨hmarked, hclear⟩ := hmark.lexes (hts.closed rfl hrest)
      refine ⟨leaf (.ident word) p :: (mark ++ us), fun hvs h => ?_, ?_⟩
      · simpa using Alike.ident p p ((halike hvs h).prepend mark)
      · have hall := (lexes_word hname hclear).trans (hmarked.trans hlexes)
        simpa using Lexes.blank (c := ' ') (by decide) hall
  | @literal _ _ literal text p entries mark _ hlength hmark hts ih =>
      obtain ⟨us, halike, hlexes⟩ := ih hrest
      obtain ⟨hmarked, hclear⟩ := hmark.lexes (hts.closed rfl hrest)
      refine ⟨leaf (.literal literal) p :: (mark ++ us), fun hvs h => ?_, ?_⟩
      · simpa using Alike.literal p p ((halike hvs h).prepend mark)
      · have hall := (lexes_literal hlength hclear).trans (hmarked.trans hlexes)
        simpa using Lexes.blank (c := ' ') (by decide) hall
  | @sign glue joint glue' c text p ts hc hts ih =>
      obtain ⟨us, halike, hlexes⟩ := ih hrest
      refine ⟨leaf (.punct c (punct? (text.toList ++ rest)).isSome) p :: us,
        fun {vs ws} hvs h => .punct _ _ (fun hstarts => ?_) (halike hvs h), ?_⟩
      · cases joint with
        | false =>
            rw [(hts.closed rfl hrest).punct?]
            rfl
        | true =>
            cases ts with
            | nil =>
                obtain ⟨-, rfl⟩ := hts.eq_nil
                rw [Bool.true_and] at hvs
                exact absurd hstarts (hvs ▸ Bool.false_ne_true)
            | cons t ts =>
                have hts' : startsWithPunct (t :: ts) = true := by
                  cases t <;> exact hstarts
                exact (hts.punct?_isSome hts').symm
      · have hall := lexes_gap glue ((lexes_sign hc (text.toList ++ rest)).trans hlexes)
        simpa [Char.toString] using hall
  | @dot glue _ text p entries mark ts hmark hts ih =>
      obtain ⟨us, halike, hlexes⟩ := ih hrest
      obtain ⟨hmarked, cs, hcs⟩ := hmark.lexes_mark (hts.closed rfl hrest)
      refine ⟨leaf (.punct '.' true) p :: leaf (.punct '<' false) .start :: (mark ++ us),
        fun hvs h => ?_, ?_⟩
      · simpa using (halike hvs h).prepend
          (leaf (.punct '.' true) p :: leaf (.punct '<' false) .start :: mark)
      · have hdot := lexes_sign (c := '.') (by decide)
          ((markText entries).toList ++ (text.toList ++ rest))
        rw [hcs, punct?_sign (by decide), ← hcs] at hdot
        simpa using lexes_gap glue (hdot.trans (hmarked.trans hlexes))
  | @parenthesis _ inner _ content text opened closed body ts hbody hts ihbody ih =>
      obtain ⟨us, halike, hlexes⟩ := ih hrest
      have hclose : Closed (' ' :: ')' :: (text.toList ++ rest)) := closed_cons (by decide)
      obtain ⟨body', halike', hlexes'⟩ := ihbody hclose
      have hbody' : Alike body body' := by
        simpa using halike' (show (inner && startsWithPunct []) = false from Bool.and_false inner) .nil
      refine ⟨group .parenthesis opened closed body' :: us,
        fun hvs h => .group _ _ _ _ hbody' (fun h => absurd rfl h) (halike hvs h), ?_⟩
      have hopen := Lexes.lexeme (Lexeme.head_openParen fun ds hds =>
        absurd (hbody.closed rfl hclose '/' (congrArg List.head? hds)) (by decide))
      have hall := hopen.trans (hlexes'.trans (.blank (c := ' ') (by decide)
        (.closing (c := ')') rfl hlexes)))
      simpa using Lexes.blank (c := ' ') (by decide) hall
  | @code _ _ delimiter opened closed body text entries mark ts hdelimiter hprinted hmark hts ih =>
      obtain ⟨us, halike, hlexes⟩ := ih hrest
      obtain ⟨hmarked, -⟩ := hmark.lexes (hts.closed rfl hrest)
      refine ⟨group delimiter opened closed body :: (mark ++ us), fun hvs h => ?_, ?_⟩
      · simpa using Alike.group opened closed opened closed (.refl body) (fun _ => rfl)
          ((halike hvs h).prepend mark)
      · have hall := (hprinted _).trans (hmarked.trans hlexes)
        simpa using Lexes.blank (c := ' ') (by decide) hall

end Inked

end GrammarCompiler
