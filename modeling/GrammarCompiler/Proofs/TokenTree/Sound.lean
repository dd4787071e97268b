import GrammarCompiler.Proofs.TokenTree.Inked

/-!
# Trees that can be written out

What is read from a text can be written out again leaf by leaf: words and literals are scanned as they
are written, and code is printed as a text that is scanned as the code (`TokenTree.AllSound`). So are
the options of an element, unless one has the text of a quoted literal for its value, which is not
quoted when it is written out (`Options.Spelled.printable`).
-/

namespace GrammarCompiler

open Text (Position isName)
open TokenTree (leaf group flats)
open Lexeme (Chain)

namespace TokenTree

mutual
/-- Whether the leaves of a tree and its code are scanned as they are written. -/
def Sound : TokenTree → Prop
  | leaf (.ident text) _ => isName text = true
  | leaf (.literal text) _ => Literal.length? text.toList = some text.toList.length
  | leaf (.punct _ _) _ => True
  | group .parenthesis _ _ body => AllSound body
  | group .brace opened closed body => IsPrinted (group .brace opened closed body)
  | group .bracket opened closed body => IsPrinted (group .bracket opened closed body)

def AllSound : List TokenTree → Prop
  | [] => True
  | t :: ts => t.Sound ∧ AllSound ts
end

theorem allSound_cons {t : TokenTree} {ts : List TokenTree} :
    AllSound (t :: ts) ↔ t.Sound ∧ AllSound ts := by
  rw [AllSound]

@[simp]
theorem allSound_append {ts us : List TokenTree} :
    AllSound (ts ++ us) ↔ AllSound ts ∧ AllSound us := by
  induction ts with
  | nil => simp [AllSound]
  | cons t ts ih => rw [List.cons_append, allSound_cons, allSound_cons, ih, and_assoc]

theorem AllSound.word {text : String} {p : Position} {ts : List TokenTree}
    (h : AllSound (leaf (.ident text) p :: ts)) : isName text = true ∧ AllSound ts := by
  rwa [allSound_cons, Sound] at h

theorem AllSound.literal {text : String} {p : Position} {ts : List TokenTree}
    (h : AllSound (leaf (.literal text) p :: ts)) :
    Literal.length? text.toList = some text.toList.length ∧ AllSound ts := by
  rwa [allSound_cons, Sound] at h

theorem AllSound.tail {t : TokenTree} {ts : List TokenTree} (h : AllSound (t :: ts)) : AllSound ts :=
  (allSound_cons.mp h).2

theorem AllSound.inside {opened closed : Position} {body ts : List TokenTree}
    (h : AllSound (group .parenthesis opened closed body :: ts)) : AllSound body := by
  have := (allSound_cons.mp h).1
  rwa [Sound] at this

theorem AllSound.code {delimiter : Delimiter} (hdelimiter : delimiter ≠ .parenthesis)
    {opened closed : Position} {body ts : List TokenTree}
    (h : AllSound (group delimiter opened closed body :: ts)) :
    IsPrinted (group delimiter opened closed body) := by
  have := (allSound_cons.mp h).1
  cases delimiter with
  | parenthesis => exact absurd rfl hdelimiter
  | brace | bracket => rwa [Sound] at this

theorem allSound_of_chain : ∀ (ts : List TokenTree) {ms : List Lexeme},
    (∀ token, ms.head? ≠ some (.leaf token)) → Chain (flats ts ++ ms) → AllSound ts
  | [], _, _, _ => by rw [AllSound]; trivial
  | .leaf token p :: ts, ms, hms, h => by
      rw [flats_cons, flat_leaf, List.singleton_append, List.cons_append] at h
      rw [allSound_cons]
      refine ⟨?_, allSound_of_chain ts hms h.2⟩
      cases token with
      | ident text => rw [Sound]; exact h.1
      | literal text => rw [Sound]; exact h.1
      | punct c joint => rw [Sound]; trivial
  | .group delimiter opened closed body :: ts, ms, hms, h => by
      have hbody : Chain (flats body ++ .closing delimiter :: (flats ts ++ ms)) := by
        rw [flats_cons, flat_group] at h
        simpa using h.2
      have hts : Chain (flats ts ++ ms) := by
        rw [flats_cons, List.append_assoc] at h
        exact h.right
      have hend : ∀ token, (Lexeme.closing delimiter :: (flats ts ++ ms)).head? ≠
          some (.leaf token) := by
        intro token h
        cases Option.some.inj h
      have hprinted : IsPrinted (group delimiter opened closed body) := lexes_group delimiter
        (fun hrest => lexes_texts body (.inl rfl) hend hbody hrest)
        (fun hrest ds htext => (noComment_texts hend hbody hrest htext rfl '*' rfl).2 rfl)
        opened closed
      rw [allSound_cons]
      refine ⟨?_, allSound_of_chain ts hms hts⟩
      cases delimiter with
      | parenthesis => rw [Sound]; exact allSound_of_chain body hend hbody
      | brace | bracket => rw [Sound]; exact hprinted
termination_by ts => sizes ts
decreasing_by all_goals simp [sizes, size]; try omega

theorem allSound_of_parse {source : String} {ts : List TokenTree} (h : parse source = .ok ts) :
    AllSound ts :=
  @allSound_of_chain ts [] nofun (by rw [List.append_nil]; exact chain_of_parse h)

mutual
/-- The tokens of a tree that can be written out are not empty. -/
theorem text_ne_of_sound : ∀ {t : TokenTree}, t.Sound → ∀ w ∈ t.written, w.text ≠ ""
  | leaf (.ident text) p, h => by
      rw [Sound] at h
      refine List.forall_mem_singleton.mpr ?_
      rintro rfl
      exact absurd h (by decide)
  | leaf (.literal text) p, h => by
      rw [Sound] at h
      refine List.forall_mem_singleton.mpr ?_
      rintro rfl
      exact absurd (Lexeme.length_pos_of_length? h) (by decide)
  | leaf (.punct c joint) p, _ => List.forall_mem_singleton.mpr (by simp [Char.toString])
  | group .parenthesis opened closed body, h => by
      rw [Sound] at h
      rw [written]
      refine List.forall_mem_cons.mpr ⟨by decide, List.forall_mem_append.mpr
        ⟨text_ne_of_allSound h, List.forall_mem_singleton.mpr (by decide)⟩⟩
  | group .brace _ _ _, _ | group .bracket _ _ _, _ =>
      List.forall_mem_singleton.mpr (by simp [delimited])

/-- The tokens of trees that can be written out are not empty. -/
theorem text_ne_of_allSound : ∀ {ts : List TokenTree}, AllSound ts → ∀ w ∈ allWritten ts, w.text ≠ ""
  | [], _ => nofun
  | t :: ts, h => by
      rw [allSound_cons] at h
      rw [allWritten]
      exact List.forall_mem_append.mpr ⟨text_ne_of_sound h.1, text_ne_of_allSound h.2⟩
end

end TokenTree

open TokenTree (AllSound)

/-! ## Options -/

/-- Whether options can be written out. -/
def Printable (entries : List (String × String)) : Prop :=
  ∀ entry ∈ entries, isName entry.1 = true ∧ ∃ joint ts, ValuePrinted entry.2 joint ts

theorem Printable.nil : Printable [] := nofun

theorem Printable.cons {key value : String} {entries : List (String × String)}
    (hkey : isName key = true) {joint : Bool} {ts : List TokenTree}
    (hvalue : ValuePrinted value joint ts) (h : Printable entries) :
    Printable ((key, value) :: entries) :=
  List.forall_mem_cons.mpr ⟨⟨hkey, joint, ts, hvalue⟩, h⟩

theorem Printable.filter {entries : List (String × String)} (h : Printable entries)
    (p : String × String → Bool) : Printable (entries.filter p) :=
  fun entry hentry => h entry (List.mem_filter.mp hentry).1

theorem Printable.setEntry {key value : String} {entries : List (String × String)}
    (hkey : isName key = true) {joint : Bool} {ts : List TokenTree}
    (hvalue : ValuePrinted value joint ts) (h : Printable entries) :
    Printable (Options.setEntry key value entries) := by
  induction entries with
  | nil => exact .cons hkey hvalue .nil
  | cons entry entries ih =>
      obtain ⟨⟨hname, hfirst⟩, hothers⟩ := List.forall_mem_cons.mp h
      rw [Options.setEntry]
      split
      · exact List.forall_mem_cons.mpr ⟨⟨hname, joint, ts, hvalue⟩, hothers⟩
      · exact List.forall_mem_cons.mpr ⟨⟨hname, hfirst⟩, ih hothers⟩

theorem Printable.exists_printed {entry : String × String} {entries : List (String × String)}
    (h : Printable (entry :: entries)) : ∃ ts, EntriesPrinted (entry :: entries) ts := by
  induction entries generalizing entry with
  | nil =>
      obtain ⟨hkey, joint, ts, hvalue⟩ := h entry (List.mem_cons_self ..)
      exact ⟨_, .last hkey hvalue⟩
  | cons next entries ih =>
      obtain ⟨⟨hkey, joint, ts, hvalue⟩, hothers⟩ := List.forall_mem_cons.mp h
      obtain ⟨us, hus⟩ := ih hothers
      exact ⟨_, .cons hkey hvalue hus⟩

namespace Literal

theorem hexDigit?_of_isDigit {c : Char} (h : c.isDigit = true) :
    ∃ n, hexDigit? c = some n ∧ n < 10 ∧ c ≠ '_' := by
  have hbounds : '0' ≤ c ∧ c ≤ '9' := by
    simp only [Char.isDigit, Bool.and_eq_true, decide_eq_true_eq] at h
    exact ⟨h.1, h.2⟩
  refine ⟨c.toNat - '0'.toNat, ?_, ?_, ?_⟩
  · unfold hexDigit?
    rw [if_pos (by simp [hbounds])]
  · have : c.toNat ≤ '9'.toNat := hbounds.2
    have h9 : '9'.toNat = 57 := rfl
    have h0 : '0'.toNat = 48 := rfl
    omega
  · rintro rfl
    exact absurd h (by decide)

theorem digitsLength_digits {cs : List Char} (h : ∀ c ∈ cs, c.isDigit = true) {empty : Bool}
    (hempty : cs = [] → empty = false) : digitsLength 10 empty cs = some cs.length := by
  induction cs generalizing empty with
  | nil =>
      rw [hempty rfl]
      rfl
  | cons c cs ih =>
      obtain ⟨hc, hcs⟩ := List.forall_mem_cons.mp h
      obtain ⟨n, hn, hlt, hc'⟩ := hexDigit?_of_isDigit hc
      rw [digitsLength, if_neg hc', hn]
      dsimp only
      rw [if_pos hlt, ih hcs (fun _ => rfl)]
      rfl

theorem fractionLength_digits {cs : List Char} (h : ∀ c ∈ cs, c.isDigit = true) :
    fractionLength false cs = none := by
  induction cs with
  | nil => rfl
  | cons c cs ih =>
      obtain ⟨hc, hcs⟩ := List.forall_mem_cons.mp h
      rw [fractionLength, hc, ih hcs]
      rfl

/-- Digits are scanned as a number. -/
theorem length?_digits {cs : List Char} (hne : cs ≠ []) (h : ∀ c ∈ cs, c.isDigit = true) :
    length? cs = some cs.length := by
  cases cs with
  | nil => exact absurd rfl hne
  | cons c cs =>
      have hcs := (List.forall_mem_cons.mp h).2
      have hfloat : floatLength (c :: cs) = none := by
        rw [floatLength, if_pos (h c (List.mem_cons_self ..)), fractionLength_digits hcs]
        rfl
      have hinteger : integerLength (c :: cs) = some (c :: cs).length := by
        unfold integerLength
        split
        · exact absurd (h 'x' (by simp_all)) (by decide)
        · exact absurd (h 'o' (by simp_all)) (by decide)
        · exact absurd (h 'b' (by simp_all)) (by decide)
        · exact digitsLength_digits h fun hnil => absurd hnil (List.cons_ne_nil c cs)
      have hnumber : numberLength (c :: cs) = some (c :: cs).length := by
        unfold numberLength
        rw [hfloat, hinteger]
        simp [withNumberSuffix, suffixLength, Text.identLength]
      have hlength : length? ((c :: cs) ++ []) = _ :=
        length?_of_numberLength hnumber (by rwa [List.append_nil])
      rwa [List.append_nil] at hlength

/-- A number is written as a literal that stands for no text. -/
theorem isBareLiteral_toString (n : Nat) : IsBareLiteral (toString n) := by
  have htext : (toString n).toList = Nat.toDigits 10 n := by
    rw [show toString n = n.repr from rfl, Nat.repr, String.toList_ofList]
  have hdigit : ∀ c ∈ (toString n).toList, c.isDigit = true := by
    intro c hc
    rw [htext] at hc
    exact Nat.isDigit_of_mem_toDigits (by decide) (by decide) hc
  have hne : (toString n).toList ≠ [] := by
    rw [htext]
    exact Nat.toDigits_ne_nil
  refine ⟨length?_digits hne hdigit, ?_⟩
  unfold value? chars?
  split
  · next heq => exact absurd (hdigit '"' (by rw [heq]; exact List.mem_cons_self ..)) (by decide)
  · next heq => exact absurd (hdigit 'r' (by rw [heq]; exact List.mem_cons_self ..)) (by decide)
  · next heq => exact absurd (hdigit '\'' (by rw [heq]; exact List.mem_cons_self ..)) (by decide)
  · next heq => exact absurd (hdigit '\'' (by rw [heq]; exact List.mem_cons_self ..)) (by decide)
  · rfl

end Literal

/-! ## Options as they are spelled -/

/-- Whether no literal among trees stands for a text of its own. -/
def Unquoted (ts : List TokenTree) : Prop :=
  ∀ text p, leaf (.literal text) p ∈ ts → Literal.value? text = none

theorem AssignmentSpelled.printed {value : String} {ts : List TokenTree}
    (h : AssignmentSpelled value ts) (hsound : AllSound ts) (hunquoted : Unquoted ts) :
    ∃ joint us, ValuePrinted value joint us := by
  cases h with
  | nothing => exact ⟨_, _, .nothing⟩
  | value joint p hvalue =>
      have hsound := hsound.tail
      cases hvalue with
      | literal text q =>
          have hvalue := hunquoted text q (by simp)
          rw [hvalue]
          exact ⟨_, _, .literal ⟨hsound.literal.1, hvalue⟩⟩
      | word text q => exact ⟨_, _, .word hsound.word.1⟩
      | negative joint' q r hnumber =>
          refine ⟨_, _, .negative ⟨hsound.tail.literal.1, hunquoted _ r (by simp)⟩ hnumber⟩

theorem EntriesSpelled.printable : ∀ {entries : List (String × String)} {ts : List TokenTree},
    EntriesSpelled entries ts → AllSound ts → Unquoted ts → Printable entries
  | [], _, h, _, _ => h.elim
  | [(key, value)], _, h, hsound, hunquoted => by
      obtain ⟨assignment, joint, p, q, rfl, hassignment⟩ := h
      obtain ⟨hkey, hsound⟩ := hsound.word
      obtain ⟨joint', us, hvalue⟩ := hassignment.printed (TokenTree.allSound_append.mp hsound).1
        fun text r hmem => hunquoted text r (by simp [hmem])
      exact .cons hkey hvalue .nil
  | (key, value) :: entry :: entries, _, h, hsound, hunquoted => by
      obtain ⟨assignment, joint, p, q, rest, rfl, hassignment, hrest⟩ := h
      obtain ⟨hkey, hsound⟩ := hsound.word
      obtain ⟨hfirst, hothers⟩ := TokenTree.allSound_append.mp hsound
      obtain ⟨joint', us, hvalue⟩ := hassignment.printed hfirst
        fun text r hmem => hunquoted text r (by simp [hmem])
      exact .cons hkey hvalue (hrest.printable hothers.tail
        fun text r hmem => hunquoted text r (by simp [hmem]))

theorem Options.Spelled.printable {options : Options} {i : Nat} {ts : List TokenTree}
    (h : options.Spelled i ts) (hsound : AllSound ts) (hunquoted : Unquoted ts) :
    Printable options.entries := by
  cases h with
  | none => exact .nil
  | some _ joint p hentries =>
      exact hentries.printable hsound.tail fun text q hmem => hunquoted text q (by simp [hmem])

end GrammarCompiler
