import GrammarCompiler.Proofs.TokenTree.Sound

/-!
# The edges of what is written

What is written by trees neither begins nor ends with a blank, but for the one space in front of it,
so nothing is lost when white space is taken away at either end (`Inked.trim_eq`). At the end this
needs that no literal stands there but one with quotes: these are the only ones that a copy may end
with.

The joint flag of the last sign means nothing to what is written (`Inked.settled`).
-/

namespace GrammarCompiler

open Text (Position isName isBlank isGap isSpecial isIdentContinue)
open TokenTree (leaf group)

/-! ## Solid ends -/

/-- Whether characters end with one that is no blank. -/
def EndsSolid (cs : List Char) : Prop :=
  ∃ c, cs.getLast? = some c ∧ isBlank c = false

namespace EndsSolid

theorem append {cs : List Char} (h : EndsSolid cs) (front : List Char) : EndsSolid (front ++ cs) := by
  obtain ⟨c, hc, hblank⟩ := h
  exact ⟨c, by rw [List.getLast?_append, hc, Option.some_or], hblank⟩

theorem single {c : Char} (h : isBlank c = false) : EndsSolid [c] := ⟨c, rfl, h⟩

theorem cons {cs : List Char} (h : EndsSolid cs) (c : Char) : EndsSolid (c :: cs) :=
  h.append [c]

/-- The characters of words are no blanks. -/
theorem of_word {cs : List Char} (hne : cs ≠ []) (h : ∀ c ∈ cs, isIdentContinue c = true) :
    EndsSolid cs := by
  refine ⟨cs.getLast hne, List.getLast?_eq_some_getLast hne, ?_⟩
  have hspecial := Text.not_isSpecial_of_isIdentContinue (h _ (List.getLast_mem hne))
  unfold isSpecial isGap at hspecial
  simp only [Bool.or_eq_false_iff] at hspecial
  exact hspecial.1.1.1.1

end EndsSolid

theorem isBlank_of_isSign {c : Char} (h : Lexeme.isSign c = true) : isBlank c = false := by
  have hmem := (Lexeme.isSign_spec h).1
  have hall : Lexeme.punctuation.all (fun d => !isBlank d) = true := by decide +kernel
  simpa using List.all_eq_true.mp hall c (List.contains_iff_mem.mp hmem)

theorem isBlank_of_not_isSpecial {c : Char} (h : isSpecial c = false) : isBlank c = false := by
  unfold isSpecial isGap at h
  simp only [Bool.or_eq_false_iff] at h
  exact h.1.1.1.1

/-- A text whose edges are no blanks is left as it is. -/
theorem Text.trim_eq {s : String} {c : Char} {cs : List Char} (hs : s.toList = c :: cs)
    (hc : isBlank c = false) (h : EndsSolid s.toList) : Text.trim s = s := by
  obtain ⟨d, hd, hblank⟩ := h
  have hfront : s.toList.dropWhile isBlank = s.toList := by
    rw [hs, List.dropWhile_cons_of_neg (by rw [hc]; exact Bool.false_ne_true)]
  unfold Text.trim Text.trimEnd
  rw [hfront, String.toList_ofList]
  obtain ⟨front, hfront⟩ := List.getLast?_eq_some_iff.mp hd
  rw [hfront, List.reverse_append, List.reverse_singleton, List.singleton_append,
    List.dropWhile_cons_of_neg (by rw [hblank]; exact Bool.false_ne_true), List.reverse_cons,
    List.reverse_reverse, ← hfront, String.ofList_toList]

/-! ## Literals with quotes -/

namespace Literal

theorem getLast?_untilQuote {content : Content} {mode : Quote.Mode} {cs : List Char}
    (h : Quote.untilQuote content mode cs = some cs.length) : cs.getLast? = some '"' := by
  induction cs generalizing mode with
  | nil => cases h
  | cons c cs ih =>
      rw [Quote.untilQuote] at h
      split at h
      · next hend =>
          obtain rfl := List.eq_nil_of_length_eq_zero (Nat.succ.inj (Option.some.inj h)).symm
          rw [Bool.and_eq_true, decide_eq_true_eq] at hend
          rw [hend.1]
          rfl
      · obtain ⟨next, -, h⟩ := Option.bind_eq_some_iff.mp h
        obtain ⟨m, hm, h⟩ := Option.bind_eq_some_iff.mp h
        obtain rfl := Nat.succ.inj (Option.some.inj h)
        rw [List.getLast?_cons, ih hm]
        rfl

theorem endsSolid_untilRawEnd {content : Content} {hashes : Nat} {cs : List Char}
    (h : untilRawEnd content hashes cs = some cs.length) : EndsSolid cs := by
  fun_induction untilRawEnd content hashes cs with
  | case1 => cases h
  | case2 cs ih =>
      obtain ⟨m, hm, heq⟩ := Option.map_eq_some_iff.mp h
      obtain rfl : m = cs.length := by simpa using heq
      exact ((ih hm).cons '\n').cons '\r'
  | case3 => cases h
  | case4 c cs _ _ hend =>
      obtain rfl : hashes = cs.length := by simpa using h
      rw [List.take_length, Bool.and_eq_true, decide_eq_true_eq, beq_iff_eq] at hend
      obtain ⟨rfl, hmarks⟩ := hend
      rw [hmarks]
      cases cs.length with
      | zero => exact .single (by decide)
      | succ n =>
          rw [List.replicate_succ']
          exact ((EndsSolid.single (by decide)).append _).cons '"'
  | case5 c cs _ _ _ _ ih =>
      obtain ⟨m, hm, heq⟩ := Option.map_eq_some_iff.mp h
      obtain rfl : m = cs.length := by simpa using heq
      exact (ih hm).cons c
  | case6 => cases h

theorem endsSolid_cookedLength {content : Content} {cs : List Char}
    (h : cookedLength content cs = some cs.length) : EndsSolid cs := by
  unfold cookedLength at h
  split at h
  · next cs =>
      obtain ⟨m, hm, heq⟩ := Option.map_eq_some_iff.mp h
      obtain rfl : m = cs.length := by simpa using heq
      exact EndsSolid.cons ⟨'"', getLast?_untilQuote hm, by decide⟩ '"'
  · cases h

theorem endsSolid_rawLength {content : Content} {cs : List Char}
    (h : rawLength content cs = some cs.length) : EndsSolid cs := by
  unfold rawLength at h
  dsimp only at h
  split at h
  · cases h
  · split at h
    · next body hbody =>
        obtain ⟨m, hm, heq⟩ := Option.map_eq_some_iff.mp h
        have hcs := List.take_append_drop (cs.takeWhile (· == '#')).length cs
        rw [hbody] at hcs
        have hle : (cs.takeWhile (· == '#')).length ≤ cs.length :=
          (List.takeWhile_sublist _).length_le
        have hlength := congrArg List.length hcs
        rw [List.length_append, List.length_take, List.length_cons, Nat.min_eq_left hle] at hlength
        obtain rfl : m = body.length := by omega
        rw [← hcs]
        exact ((endsSolid_untilRawEnd hm).cons '"').append _
    · cases h

theorem endsSolid_singleLength {content : Content} {cs : List Char}
    (h : singleLength content cs = some cs.length) : EndsSolid cs := by
  have hquote : isBlank '\'' = false := by decide
  unfold singleLength at h
  split at h
  · next cs =>
      obtain ⟨m, -, h⟩ := Option.bind_eq_some_iff.mp h
      obtain ⟨hhead, h⟩ := Option.ite_none_right_eq_some.mp h
      have hlength : m + 1 = cs.length := by simpa using h
      obtain ⟨tail, htail⟩ := List.head?_eq_some_iff.mp hhead
      have hnil : tail = [] := by
        have := congrArg List.length htail
        rw [List.length_drop, List.length_cons] at this
        exact List.eq_nil_of_length_eq_zero (by omega)
      rw [← List.take_append_drop m cs, htail, hnil]
      exact (((EndsSolid.single hquote).append _).cons '\\').cons '\''
  · next c tail _ =>
      obtain ⟨-, h⟩ := Option.ite_none_right_eq_some.mp h
      have hnil : tail = [] := List.eq_nil_of_length_eq_zero (by simpa using h.symm)
      rw [hnil]
      exact ((EndsSolid.single hquote).cons c).cons '\''
  · cases h

theorem isDigit_of_numberLength {c : Char} {cs : List Char} {n : Nat}
    (h : numberLength (c :: cs) = some n) : c.isDigit = true := by
  by_contra hdigit
  rw [Lexeme.numberLength_of_not_digit (Bool.not_eq_true _ ▸ hdigit)] at h
  cases h

/-- A literal that stands for a text ends with its quote, its marks or its suffix. -/
theorem endsSolid_of_chars? {cs : List Char} (h : length? cs = some cs.length)
    (hchars : (chars? cs).isSome = true) : EndsSolid cs := by
  -- it begins like a quoted literal, so it is none of the others
  have hquoted : ∃ m, quotedLength cs = some m ∧ cs.length = m + suffixLength (cs.drop m) ∧
      (quotedLength cs = some cs.length → EndsSolid cs) := by
    cases cs with
    | nil => cases hchars
    | cons c cs =>
        have hc : c = '"' ∨ c = 'r' ∨ c = '\'' := by
          unfold chars? at hchars
          split at hchars
          · next heq => exact .inl (List.cons.inj heq).1
          · next heq => exact .inr (.inl (List.cons.inj heq).1)
          · next heq => exact .inr (.inr (List.cons.inj heq).1)
          · next heq => exact .inr (.inr (List.cons.inj heq).1)
          · cases hchars
        rcases length?_cases h with ⟨m, hm, hlength⟩ | hnumber | ⟨tail, htail, -⟩
        · refine ⟨m, hm, hlength, fun hall => ?_⟩
          rcases hc with rfl | rfl | rfl
          · exact endsSolid_cookedLength hall
          · obtain ⟨n, hn, heq⟩ := Option.map_eq_some_iff.mp hall
            obtain rfl : n = cs.length := by simpa using heq
            exact (endsSolid_rawLength hn).cons 'r'
          · exact endsSolid_singleLength hall
        · have hdigit := isDigit_of_numberLength hnumber
          rcases hc with rfl | rfl | rfl <;> exact absurd hdigit (by decide)
        · have := (List.cons.inj htail).1
          rcases hc with rfl | rfl | rfl <;> exact absurd this (by decide)
  obtain ⟨m, hm, hlength, hall⟩ := hquoted
  obtain ⟨hle, -, hword⟩ := suffixLength_take (cs.drop m)
  rw [List.length_drop] at hle
  by_cases hzero : suffixLength (cs.drop m) = 0
  · exact hall (hm.trans (congrArg some (by omega)))
  · rw [List.take_of_length_le (by rw [List.length_drop]; omega)] at hword
    rw [← List.take_append_drop m cs]
    refine (EndsSolid.of_word ?_ hword).append _
    intro hnil
    have := congrArg List.length hnil
    rw [List.length_drop, List.length_nil] at this
    omega

end Literal

/-! ## The last tree -/

namespace TokenTree

/-- A tree by itself: a sign that nothing is joint with. -/
def alone : TokenTree → TokenTree
  | leaf (.punct c _) p => leaf (.punct c false) p
  | t => t

/-- Trees the last of which is by itself. -/
def settled : List TokenTree → List TokenTree
  | [] => []
  | [t] => [t.alone]
  | t :: u :: ts => t :: settled (u :: ts)

theorem settled_cons (t : TokenTree) {ts : List TokenTree} (h : ts ≠ []) :
    settled (t :: ts) = t :: settled ts := by
  cases ts with
  | nil => exact absurd rfl h
  | cons u ts => rfl

theorem settled_append (ts : List TokenTree) {us : List TokenTree} (h : us ≠ []) :
    settled (ts ++ us) = ts ++ settled us := by
  induction ts with
  | nil => rfl
  | cons t ts ih =>
      rw [List.cons_append, settled_cons t (by simp [h]), ih, List.cons_append]

/-- Whether the last tree is no literal that stands for no text. -/
def Firm (ts : List TokenTree) : Prop :=
  ∀ text p, ts.getLast? = some (leaf (.literal text) p) → (Literal.value? text).isSome = true

theorem Firm.behind {us : List TokenTree} (ts : List TokenTree) (h : Firm (ts ++ us)) :
    Firm us := by
  intro text p hlast
  refine h text p ?_
  rw [List.getLast?_append, hlast, Option.some_or]

theorem Firm.append {us : List TokenTree} (h : Firm us) (ts : List TokenTree) (hne : us ≠ []) :
    Firm (ts ++ us) := by
  intro text p hlast
  refine h text p ?_
  rw [List.getLast?_append, List.getLast?_eq_some_getLast hne, Option.some_or] at hlast
  rw [← hlast, List.getLast?_eq_some_getLast hne]

end TokenTree

open TokenTree (settled settled_cons settled_append Firm)

/-- A mark ends with a bracket. -/
theorem EntriesPrinted.exists_append {entries : List (String × String)} {ts : List TokenTree}
    (h : EntriesPrinted entries ts) : ∃ front, ts = front ++ [leaf (.punct '>' false) .start] := by
  induction h with
  | @last key _ joint ts =>
      exact ⟨leaf (.ident key) .start :: leaf (.punct '=' joint) .start :: ts, by simp⟩
  | @cons key _ joint ts _ _ _ _ _ _ ih =>
      obtain ⟨front, rfl⟩ := ih
      exact ⟨leaf (.ident key) .start :: leaf (.punct '=' joint) .start ::
        (ts ++ leaf (.punct ',' false) .start :: front), by simp⟩

theorem EntriesPrinted.settled {entries : List (String × String)} {ts : List TokenTree}
    (h : EntriesPrinted entries ts) : ts ≠ [] ∧ settled ts = ts := by
  obtain ⟨front, rfl⟩ := h.exists_append
  exact ⟨by simp, by rw [settled_append _ (by simp)]; rfl⟩

theorem EntriesPrinted.firm {entries : List (String × String)} {ts : List TokenTree}
    (h : EntriesPrinted entries ts) : Firm ts := by
  obtain ⟨front, rfl⟩ := h.exists_append
  exact Firm.append (fun text p hlast => by cases hlast) front (by simp)

theorem MarkPrinted.settled {entries : List (String × String)} {ts : List TokenTree}
    (h : MarkPrinted entries ts) : settled ts = ts := by
  cases h with
  | nothing => rfl
  | options h =>
      obtain ⟨hne, h⟩ := h.settled
      rw [settled_cons _ hne, h]

/-- What has a mark behind it that may be empty. -/
theorem MarkPrinted.settled_behind {entries : List (String × String)} {ts : List TokenTree}
    (h : MarkPrinted entries ts) {t : TokenTree} (ht : t.alone = t) :
    TokenTree.settled (t :: (ts ++ [])) = t :: (ts ++ []) := by
  rw [List.append_nil]
  cases ts with
  | nil => rw [TokenTree.settled, ht]
  | cons => rw [settled_cons _ (by simp), h.settled]

theorem EntriesPrinted.endsSolid {entries : List (String × String)} {ts : List TokenTree}
    (h : EntriesPrinted entries ts) : EndsSolid (markText entries).toList := by
  have hne : entries.isEmpty = false := by cases h <;> rfl
  unfold markText
  rw [hne, if_neg Bool.false_ne_true, String.toList_append]
  exact (EndsSolid.single (by decide)).append _

theorem MarkPrinted.endsSolid {entries : List (String × String)} {ts : List TokenTree}
    (h : MarkPrinted entries ts) {cs : List Char} (hcs : ts = [] → EndsSolid cs) :
    EndsSolid (cs ++ (markText entries).toList) := by
  cases h with
  | nothing => simpa [markText] using hcs rfl
  | options h => exact h.endsSolid.append cs

/-! ## Edges of leaves and code -/

theorem exists_cons_word {word : String} (h : isName word = true) :
    ∃ c cs, word.toList = c :: cs ∧ isBlank c = false := by
  rw [← String.ofList_toList (s := word)] at h
  rcases Lexeme.isName_iff.mp h with ⟨c, cs, hw, hc, -⟩ | ⟨c, cs, hw, -⟩
  · exact ⟨c, cs, hw, isBlank_of_not_isSpecial
      (Text.not_isSpecial_of_isIdentContinue (Text.isIdentContinue_of_isIdentStart hc))⟩
  · exact ⟨'r', _, hw, by decide⟩

theorem endsSolid_word {word : String} (h : isName word = true) : EndsSolid word.toList := by
  have hall : ∀ {c : Char} {cs : List Char}, Text.isIdentStart c = true →
      (∀ d ∈ cs, isIdentContinue d = true) → EndsSolid (c :: cs) := fun hc hcs =>
    .of_word nofun (List.forall_mem_cons.mpr ⟨Text.isIdentContinue_of_isIdentStart hc, hcs⟩)
  rw [← String.ofList_toList (s := word)] at h
  rcases Lexeme.isName_iff.mp h with ⟨c, cs, hw, hc, hcs⟩ | ⟨c, cs, hw, hc, hcs, -⟩
  · rw [hw]
    exact hall hc hcs
  · rw [hw]
    exact ((hall hc hcs).cons '#').cons 'r'

theorem exists_cons_literal {text : String}
    (h : Literal.length? text.toList = some text.toList.length) :
    ∃ c cs, text.toList = c :: cs ∧ isBlank c = false := by
  cases hw : text.toList with
  | nil =>
      rw [hw] at h
      exact absurd (Lexeme.length_pos_of_length? h) (Nat.lt_irrefl 0)
  | cons c w =>
      refine ⟨c, w, rfl, Bool.eq_false_iff.mpr fun hblank => ?_⟩
      have hspecial : isSpecial c = true := by
        unfold isSpecial isGap
        rw [hblank]
        rfl
      have hne : ∀ d : Char, isBlank d = false → c ≠ d := by
        rintro d hd rfl
        rw [hblank] at hd
        cases hd
      rw [hw, Lexeme.length?_of_isSpecial hspecial (hne _ (by decide)) (hne _ (by decide))
        (hne _ (by decide))] at h
      cases h

theorem exists_cons_group (delimiter : Delimiter) (opened closed : Position)
    (body : List TokenTree) : ∃ c cs,
      (group delimiter opened closed body).text.toList = c :: cs ∧ isBlank c = false := by
  rw [TokenTree.text]
  cases delimiter with
  | parenthesis => exact ⟨'(', _, by simp [TokenTree.delimited]; rfl, by decide⟩
  | bracket => exact ⟨'[', _, by simp [TokenTree.delimited]; rfl, by decide⟩
  | brace => exact ⟨'\x7b', _, by simp [TokenTree.delimited]; rfl, by decide⟩

theorem endsSolid_group (delimiter : Delimiter) (opened closed : Position)
    (body : List TokenTree) : EndsSolid (group delimiter opened closed body).text.toList := by
  rw [TokenTree.text]
  have hlast : ∀ {c : Char} (front : String), isBlank c = false →
      EndsSolid (front ++ String.ofList [c]).toList := fun front hc => by
    rw [String.toList_append, String.toList_ofList]
    exact (EndsSolid.single hc).append _
  cases delimiter with
  | parenthesis => exact hlast (c := ')') _ (by decide)
  | bracket => exact hlast (c := ']') _ (by decide)
  | brace =>
      unfold TokenTree.delimited
      dsimp only
      split
      · exact hlast (c := '\x7d') _ (by decide)
      · rw [String.toList_append]
        exact ((EndsSolid.single (c := '\x7d') (by decide)).cons ' ').append _

namespace Inked

variable {glue glue' : Bool} {ts : List TokenTree} {text : String}

/-- The last sign may as well be by itself. -/
theorem settled (h : Inked glue ts text glue') (hne : ts ≠ []) :
    Inked glue (settled ts) text false := by
  induction h with
  | nil => exact absurd rfl hne
  | @word _ _ word text p entries mark ts hname hmark hts ih =>
      by_cases hnil : ts = []
      · subst hnil
        obtain ⟨rfl, rfl⟩ := hts.eq_nil
        rw [hmark.settled_behind rfl]
        exact .word hname hmark (.nil false)
      · rw [settled_cons _ (by simp [hnil]), settled_append _ hnil]
        exact .word hname hmark (ih hnil)
  | @literal _ _ literal text p entries mark ts hlength hmark hts ih =>
      by_cases hnil : ts = []
      · subst hnil
        obtain ⟨rfl, rfl⟩ := hts.eq_nil
        rw [hmark.settled_behind rfl]
        exact .literal hlength hmark (.nil false)
      · rw [settled_cons _ (by simp [hnil]), settled_append _ hnil]
        exact .literal hlength hmark (ih hnil)
  | @sign _ _ _ _ _ _ ts hc hts ih =>
      by_cases hnil : ts = []
      · subst hnil
        obtain ⟨rfl, -⟩ := hts.eq_nil
        exact .sign hc (.nil false)
      · rw [settled_cons _ hnil]
        exact .sign hc (ih hnil)
  | @dot glue _ _ p entries mark ts hmark hts ih =>
      by_cases hnil : ts = []
      · subst hnil
        obtain ⟨rfl, rfl⟩ := hts.eq_nil
        obtain ⟨hne, hself⟩ := hmark.settled
        rw [settled_cons _ (by simp), settled_cons _ (by simp [hne]), List.append_nil, hself]
        have hdot : Inked glue _ _ _ := .dot (p := p) hmark (.nil false)
        rwa [List.append_nil] at hdot
      · rw [settled_cons _ (by simp), settled_cons _ (by simp [hnil]), settled_append _ hnil]
        exact .dot hmark (ih hnil)
  | @parenthesis _ _ _ _ _ _ _ _ ts hbody hts _ ih =>
      by_cases hnil : ts = []
      · subst hnil
        obtain ⟨rfl, rfl⟩ := hts.eq_nil
        exact .parenthesis hbody (.nil false)
      · rw [settled_cons _ hnil]
        exact .parenthesis hbody (ih hnil)
  | @code _ _ delimiter opened closed body text entries mark ts hdelimiter hprinted hmark hts ih =>
      by_cases hnil : ts = []
      · subst hnil
        obtain ⟨rfl, rfl⟩ := hts.eq_nil
        rw [hmark.settled_behind rfl]
        exact .code hdelimiter hprinted hmark (.nil false)
      · rw [settled_cons _ (by simp [hnil]), settled_append _ hnil]
        exact .code hdelimiter hprinted hmark (ih hnil)

/-- What is written ends with no blank. -/
theorem endsSolid (h : Inked glue ts text glue') (hne : ts ≠ []) (hfirm : Firm ts) :
    EndsSolid text.toList := by
  induction h with
  | nil => exact absurd rfl hne
  | @word _ _ word text p entries mark ts hname hmark hts ih =>
      rw [String.toList_append]
      by_cases hnil : ts = []
      · obtain ⟨rfl, rfl⟩ := (hnil ▸ hts).eq_nil
        rw [String.toList_empty, List.append_nil, String.toList_append, String.toList_append]
        exact hmark.endsSolid fun _ => (endsSolid_word hname).append _
      · exact (ih hnil (hfirm.behind (leaf (.ident word) p :: mark))).append _
  | @literal _ _ literal text p entries mark ts hlength hmark hts ih =>
      rw [String.toList_append]
      by_cases hnil : ts = []
      · obtain ⟨rfl, rfl⟩ := (hnil ▸ hts).eq_nil
        rw [String.toList_empty, List.append_nil, String.toList_append, String.toList_append]
        refine hmark.endsSolid fun hmark => EndsSolid.append ?_ _
        have hvalue := hfirm literal p (by rw [hmark, hnil]; rfl)
        exact Literal.endsSolid_of_chars? hlength (by simpa [Literal.value?] using hvalue)
      · exact (ih hnil (hfirm.behind (leaf (.literal literal) p :: mark))).append _
  | @sign glue _ _ c text p ts hc hts ih =>
      rw [String.toList_append]
      by_cases hnil : ts = []
      · obtain ⟨rfl, -⟩ := (hnil ▸ hts).eq_nil
        rw [String.toList_empty, List.append_nil, String.toList_append, Char.toString,
          String.toList_singleton]
        exact (EndsSolid.single (isBlank_of_isSign hc)).append _
      · exact (ih hnil (hfirm.behind [leaf (.punct c _) p])).append _
  | @dot _ _ text p entries mark ts hmark hts ih =>
      rw [String.toList_append]
      by_cases hnil : ts = []
      · obtain ⟨rfl, rfl⟩ := (hnil ▸ hts).eq_nil
        rw [String.toList_empty, List.append_nil, String.toList_append]
        exact hmark.endsSolid.append _
      · exact (ih hnil (hfirm.behind
          (leaf (.punct '.' true) p :: leaf (.punct '<' false) .start :: mark))).append _
  | @parenthesis _ _ _ content text opened closed body ts hbody hts _ ih =>
      rw [String.toList_append]
      by_cases hnil : ts = []
      · obtain ⟨rfl, rfl⟩ := (hnil ▸ hts).eq_nil
        rw [String.toList_empty, List.append_nil, String.toList_append]
        exact ((EndsSolid.single (c := ')') (by decide)).cons ' ').append _
      · exact (ih hnil (hfirm.behind [group .parenthesis opened closed body])).append _
  | @code _ _ delimiter opened closed body text entries mark ts hdelimiter hprinted hmark hts ih =>
      rw [String.toList_append]
      by_cases hnil : ts = []
      · obtain ⟨rfl, rfl⟩ := (hnil ▸ hts).eq_nil
        rw [String.toList_empty, List.append_nil, String.toList_append, String.toList_append]
        exact hmark.endsSolid fun _ => (endsSolid_group delimiter opened closed body).append _
      · exact (ih hnil (hfirm.behind
          (group delimiter opened closed body :: mark))).append _

/-- What is written begins with a space and no further blank. -/
theorem exists_cons (h : Inked false ts text glue') (hne : ts ≠ []) :
    ∃ c cs, text.toList = ' ' :: c :: cs ∧ isBlank c = false := by
  cases h with
  | nil => exact absurd rfl hne
  | @word _ _ word text p entries mark ts hname hmark hts =>
      obtain ⟨c, cs, hcs, hblank⟩ := exists_cons_word hname
      exact ⟨c, _, by simp [hcs]; rfl, hblank⟩
  | @literal _ _ literal text p entries mark ts hlength hmark hts =>
      obtain ⟨c, cs, hcs, hblank⟩ := exists_cons_literal hlength
      exact ⟨c, _, by simp [hcs]; rfl, hblank⟩
  | sign hc => exact ⟨_, _, by simp [gap, Char.toString]; rfl, isBlank_of_isSign hc⟩
  | dot => exact ⟨'.', _, by simp [gap]; rfl, by decide⟩
  | parenthesis => exact ⟨'(', _, by simp; rfl, by decide⟩
  | @code _ _ delimiter opened closed body =>
      obtain ⟨c, cs, hcs, hblank⟩ := exists_cons_group delimiter opened closed body
      exact ⟨c, _, by simp [hcs]; rfl, hblank⟩

/-- What is written has no white space at either end but the space in front of it. -/
theorem trim_eq (h : Inked false ts (" " ++ text) glue') (hne : ts ≠ []) (hfirm : Firm ts) :
    text ≠ "" ∧ Text.trim text = text := by
  obtain ⟨c, cs, hcs, hblank⟩ := h.exists_cons hne
  obtain ⟨d, hd, hlast⟩ := h.endsSolid hne hfirm
  have htext : text.toList = c :: cs := by simpa using hcs
  refine ⟨fun hempty => ?_, Text.trim_eq htext hblank ⟨d, ?_, hlast⟩⟩
  · rw [hempty] at htext
    cases htext
  · rw [hcs, List.getLast?_cons_cons] at hd
    rw [htext, hd]

end Inked

end GrammarCompiler
