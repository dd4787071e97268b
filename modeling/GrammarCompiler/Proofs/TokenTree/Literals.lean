import GrammarCompiler.Proofs.TokenTree.Word

/-!
# Reading a literal again

How long a literal is depends on its own characters and on the next one, which must not go on with
it. So a literal that was read from a text is one by itself (`length?_take`), and it is read again
in front of every break (`length?_append`).

A quoted literal ends at its last character whatever comes behind it (`Ends`). For numbers and
suffixes a break does what the end of the text does.
-/

namespace GrammarCompiler.Literal

open Text

/-! ## Quoted literals -/

/-- What is measured at the head of a text ends there, whatever comes behind it. -/
def Ends (f : List Char → Option Nat) : Prop :=
  ∀ cs n, f cs = some n →
    ∃ w tail, cs = w ++ tail ∧ w.length = n ∧ ∀ rest, f (w ++ rest) = some n

theorem ends_untilQuote (content : Content) (mode : Quote.Mode) :
    Ends (Quote.untilQuote content mode) := by
  intro cs n h
  induction cs generalizing mode n with
  | nil => cases h
  | cons c cs ih =>
      rw [Quote.untilQuote] at h
      split at h
      · next hend =>
          obtain rfl := Option.some.inj h
          exact ⟨[c], cs, rfl, rfl, fun rest => by
            rw [List.singleton_append, Quote.untilQuote, if_pos hend]⟩
      · next hend =>
          obtain ⟨next, hnext, h⟩ := Option.bind_eq_some_iff.mp h
          obtain ⟨m, hm, h⟩ := Option.bind_eq_some_iff.mp h
          obtain rfl := Option.some.inj h
          obtain ⟨w, tail, rfl, rfl, hw⟩ := ih next m hm
          refine ⟨c :: w, tail, rfl, rfl, fun rest => ?_⟩
          rw [List.cons_append, Quote.untilQuote, if_neg hend, hnext]
          exact congrArg (Option.bind · _) (hw rest)

theorem ends_untilBody (content : Content) (mode : Quote.Mode) :
    Ends (Quote.untilBody content mode) := by
  intro cs n h
  induction cs generalizing mode n with
  | nil => cases h
  | cons c cs ih =>
      rw [Quote.untilBody] at h
      split at h
      · cases h
      · cases h
      · cases h
      · next hstep =>
          obtain rfl := Option.some.inj h
          exact ⟨[c], cs, rfl, rfl, fun rest => by
            rw [List.singleton_append, Quote.untilBody, hstep]⟩
      · next next hfolded hcarriage hbody hstep =>
          obtain ⟨m, hm, rfl⟩ := Option.map_eq_some_iff.mp h
          obtain ⟨w, tail, rfl, rfl, hw⟩ := ih next m hm
          refine ⟨c :: w, tail, rfl, rfl, fun rest => ?_⟩
          rw [List.cons_append, Quote.untilBody, hstep]
          have hmap := congrArg (Option.map (· + 1)) (hw rest)
          cases next with
          | folded => exact (hfolded rfl).elim
          | foldedCarriage => exact (hcarriage rfl).elim
          | body => exact (hbody rfl).elim
          | _ => exact hmap

theorem lt_of_untilRawEnd {content : Content} {hashes : Nat} {cs : List Char} {n : Nat}
    (h : untilRawEnd content hashes cs = some n) : hashes < n := by
  fun_induction untilRawEnd content hashes cs generalizing n with
  | case1 => cases h
  | case2 cs ih =>
      obtain ⟨m, hm, rfl⟩ := Option.map_eq_some_iff.mp h
      exact Nat.lt_add_right 2 (ih hm)
  | case3 => cases h
  | case4 =>
      obtain rfl := Option.some.inj h
      exact Nat.lt_succ_self _
  | case5 c cs _ _ _ _ ih =>
      obtain ⟨m, hm, rfl⟩ := Option.map_eq_some_iff.mp h
      exact Nat.lt_add_right 1 (ih hm)
  | case6 => cases h

theorem ends_untilRawEnd (content : Content) (hashes : Nat) :
    Ends (untilRawEnd content hashes) := by
  intro cs n h
  fun_induction untilRawEnd content hashes cs generalizing n with
  | case1 => cases h
  | case2 cs ih =>
      obtain ⟨m, hm, rfl⟩ := Option.map_eq_some_iff.mp h
      obtain ⟨w, tail, rfl, rfl, hw⟩ := ih m hm
      refine ⟨'\r' :: '\n' :: w, tail, rfl, rfl, fun rest => ?_⟩
      rw [List.cons_append, List.cons_append, untilRawEnd, hw rest]
      rfl
  | case3 => cases h
  | case4 c cs hline hreturn hend =>
      obtain rfl := Option.some.inj h
      rw [Bool.and_eq_true, decide_eq_true_eq, beq_iff_eq] at hend
      obtain ⟨rfl, htake⟩ := hend
      refine ⟨'"' :: List.replicate hashes '#', cs.drop hashes, ?_, ?_, fun rest => ?_⟩
      · rw [← htake, List.cons_append, List.take_append_drop]
      · rw [List.length_cons, List.length_replicate]
      · rw [List.cons_append, untilRawEnd, if_pos]
        · rw [List.take_left' (List.length_replicate ..), beq_self_eq_true]
          rfl
        · exact fun _ h => absurd h (by decide)
        · exact fun h => absurd h (by decide)
  | case5 c cs hline hreturn hend hplain ih =>
      obtain ⟨m, hm, rfl⟩ := Option.map_eq_some_iff.mp h
      obtain ⟨w, tail, rfl, rfl, hw⟩ := ih m hm
      refine ⟨c :: w, tail, rfl, rfl, fun rest => ?_⟩
      have htake : ∀ more, (w ++ more).take hashes = w.take hashes := fun more =>
        List.take_append_of_le_length (lt_of_untilRawEnd hm).le
      rw [htake] at hend
      rw [List.cons_append, untilRawEnd, htake, if_neg hend, if_pos hplain, hw rest]
      · rfl
      · exact fun ds h => absurd h hreturn
      · exact hreturn
  | case6 => cases h

/-- Letters in front of what ends by itself. -/
theorem Ends.behind {f : List Char → Option Nat} (hf : Ends f) {cs : List Char} {n k : Nat}
    (h : (f cs).map (· + k) = some n) (front : List Char) (hk : front.length = k) :
    ∃ w tail, front ++ cs = front ++ w ++ tail ∧ (front ++ w).length = n ∧
      ∀ rest, (f (w ++ rest)).map (· + k) = some n := by
  obtain ⟨m, hm, rfl⟩ := Option.map_eq_some_iff.mp h
  obtain ⟨w, tail, rfl, rfl, hw⟩ := hf cs m hm
  refine ⟨w, tail, (List.append_assoc ..).symm, ?_, fun rest => ?_⟩
  · rw [List.length_append, hk, Nat.add_comm]
  · rw [hw rest]
    rfl

theorem ends_cookedLength (content : Content) : Ends (cookedLength content) := by
  intro cs n h
  unfold cookedLength at h
  split at h
  · obtain ⟨w, tail, hcs, hlength, hw⟩ := (ends_untilQuote content .body).behind h ['"'] rfl
    exact ⟨['"'] ++ w, tail, hcs, hlength, hw⟩
  · cases h

/-- The marks of a raw string, counted in front of its quote. -/
theorem takeWhile_marks (hashes : Nat) (cs : List Char) :
    ((List.replicate hashes '#' ++ '"' :: cs).takeWhile (· == '#')).length = hashes := by
  rw [List.takeWhile_append_of_pos fun c hc => beq_iff_eq.mpr (List.eq_of_mem_replicate hc),
    List.takeWhile_cons_of_neg (by decide), List.append_nil, List.length_replicate]

theorem rawLength_marks (content : Content) {hashes : Nat} (hmax : ¬maxHashes < hashes)
    (cs : List Char) :
    rawLength content (List.replicate hashes '#' ++ '"' :: cs) =
      (untilRawEnd content hashes cs).map (· + (hashes + 1)) := by
  unfold rawLength
  dsimp only
  rw [takeWhile_marks, if_neg hmax, List.drop_left' (List.length_replicate ..)]
  rfl

theorem ends_rawLength (content : Content) : Ends (rawLength content) := by
  intro cs n h
  have hmarks : ∃ hashes body, ¬maxHashes < hashes ∧
      cs = List.replicate hashes '#' ++ '"' :: body := by
    unfold rawLength at h
    dsimp only at h
    split at h
    · cases h
    · next hmax =>
        split at h
        · next body hbody =>
            refine ⟨_, body, hmax, ?_⟩
            rw [← hbody, ← List.eq_replicate_iff.mpr ⟨rfl, fun c hc =>
              beq_iff_eq.mp (List.mem_takeWhile_imp (p := (· == '#')) hc)⟩]
            exact (List.prefix_iff_eq_append.mp (List.takeWhile_prefix _)).symm
        · cases h
  obtain ⟨hashes, body, hmax, rfl⟩ := hmarks
  rw [rawLength_marks content hmax] at h
  obtain ⟨w, tail, hw, hlength, hlexes⟩ := (ends_untilRawEnd content hashes).behind h
    (List.replicate hashes '#' ++ ['"']) (by simp)
  refine ⟨List.replicate hashes '#' ++ ['"'] ++ w, tail, ?_, hlength, fun rest => ?_⟩
  · rw [← hw, List.append_assoc, List.singleton_append]
  · rw [List.append_assoc, List.append_assoc, List.singleton_append, rawLength_marks content hmax]
    exact hlexes rest

theorem ends_singleLength (content : Content) : Ends (singleLength content) := by
  intro cs n h
  unfold singleLength at h
  split at h
  · next cs =>
      obtain ⟨m, hm, h⟩ := Option.bind_eq_some_iff.mp h
      obtain ⟨hquote, h⟩ := Option.ite_none_right_eq_some.mp h
      obtain rfl := Option.some.inj h
      obtain ⟨w, tail, rfl, rfl, hw⟩ := ends_untilBody content .escape cs m hm
      rw [List.drop_left] at hquote
      obtain ⟨tail, rfl⟩ := List.head?_eq_some_iff.mp hquote
      refine ⟨'\'' :: '\\' :: (w ++ ['\'']), tail, by simp, by simp, fun rest => ?_⟩
      rw [List.cons_append, List.cons_append, List.append_assoc, List.singleton_append]
      rw [singleLength, hw, Option.bind_eq_bind, Option.bind_some, List.drop_left, List.head?_cons, if_pos rfl]
  · next c tail hc =>
      obtain ⟨hplain, h⟩ := Option.ite_none_right_eq_some.mp h
      obtain rfl := Option.some.inj h
      refine ⟨['\'', c, '\''], tail, rfl, rfl, fun rest => ?_⟩
      unfold singleLength
      split
      · next heq =>
          obtain rfl := (List.cons.inj (List.cons.inj heq).2).1
          exact (hc rfl).elim
      · next heq =>
          obtain rfl := (List.cons.inj (List.cons.inj heq).2).1
          exact if_pos hplain
      · next hno => exact absurd rfl (hno c rest)
  · cases h

theorem head?_cookedLength {content : Content} {cs : List Char} {n : Nat}
    (h : cookedLength content cs = some n) : ∃ cs', cs = '"' :: cs' := by
  unfold cookedLength at h
  split at h
  · exact ⟨_, rfl⟩
  · cases h

theorem head?_singleLength {content : Content} {cs : List Char} {n : Nat}
    (h : singleLength content cs = some n) : ∃ cs', cs = '\'' :: cs' := by
  unfold singleLength at h
  split at h
  · exact ⟨_, rfl⟩
  · exact ⟨_, rfl⟩
  · cases h

theorem ends_quotedLength : Ends quotedLength := by
  intro cs n h
  unfold quotedLength at h
  split at h
  · obtain ⟨w, tail, hw, hlength, hrest⟩ := (ends_rawLength .text).behind h ['r'] rfl
    exact ⟨['r'] ++ w, tail, hw, hlength, hrest⟩
  · obtain ⟨w, tail, hw, hlength, hrest⟩ := (ends_rawLength .bytes).behind h ['b', 'r'] rfl
    exact ⟨['b', 'r'] ++ w, tail, hw, hlength, hrest⟩
  · obtain ⟨w, tail, hw, hlength, hrest⟩ := (ends_singleLength .bytes).behind h ['b'] rfl
    obtain ⟨m, hm, -⟩ := Option.map_eq_some_iff.mp (hrest [])
    obtain ⟨w', hw'⟩ := head?_singleLength hm
    rw [List.append_nil] at hw'
    subst hw'
    exact ⟨_, tail, hw, hlength, hrest⟩
  · obtain ⟨w, tail, hw, hlength, hrest⟩ := (ends_cookedLength .bytes).behind h ['b'] rfl
    obtain ⟨m, hm, -⟩ := Option.map_eq_some_iff.mp (hrest [])
    obtain ⟨w', hw'⟩ := head?_cookedLength hm
    rw [List.append_nil] at hw'
    subst hw'
    exact ⟨_, tail, hw, hlength, hrest⟩
  · obtain ⟨w, tail, hw, hlength, hrest⟩ := (ends_rawLength .zeroEnded).behind h ['c', 'r'] rfl
    exact ⟨['c', 'r'] ++ w, tail, hw, hlength, hrest⟩
  · obtain ⟨w, tail, hw, hlength, hrest⟩ := (ends_cookedLength .zeroEnded).behind h ['c'] rfl
    obtain ⟨m, hm, -⟩ := Option.map_eq_some_iff.mp (hrest [])
    obtain ⟨w', hw'⟩ := head?_cookedLength hm
    rw [List.append_nil] at hw'
    subst hw'
    exact ⟨_, tail, hw, hlength, hrest⟩
  · obtain ⟨w, tail, hw, hlength, hrest⟩ := ends_singleLength .text _ _ h
    obtain ⟨w', hw'⟩ := head?_singleLength (hrest [])
    rw [List.append_nil] at hw'
    subst hw'
    exact ⟨_, tail, hw, hlength, hrest⟩
  · obtain ⟨w, tail, hw, hlength, hrest⟩ := ends_cookedLength .text _ _ h
    obtain ⟨w', hw'⟩ := head?_cookedLength (hrest [])
    rw [List.append_nil] at hw'
    subst hw'
    exact ⟨_, tail, hw, hlength, hrest⟩

/-! ## Suffixes -/

theorem takeWhile_append_break {rest : List Char} (hrest : Clear rest) (u : List Char) :
    (u ++ rest).takeWhile isIdentContinue = u.takeWhile isIdentContinue := by
  induction u with
  | nil => exact takeWhile_append_clear (fun _ h => nomatch h) hrest
  | cons c u ih => rw [List.cons_append, List.takeWhile_cons, List.takeWhile_cons, ih]

theorem identLength_append_break {rest : List Char} (hrest : Clear rest) (u : List Char) :
    identLength (u ++ rest) = identLength u := by
  cases u with
  | nil => exact identLength_clear hrest
  | cons c u =>
      rw [List.cons_append, identLength, identLength, takeWhile_append_break hrest]

theorem suffixLength_append {rest : List Char} (hrest : Clear rest) (u : List Char) :
    suffixLength (u ++ rest) = suffixLength u :=
  congrArg (Option.getD · 0) (identLength_append_break hrest u)

/-- A suffix is made of the letters at the head of a text. -/
theorem suffixLength_eq (cs : List Char) :
    suffixLength cs = 0 ∨ ∃ c ds tail, cs = (c :: ds) ++ tail ∧
      suffixLength cs = (c :: ds).length ∧ isIdentStart c = true ∧
      ∀ d ∈ ds, isIdentContinue d = true := by
  cases cs with
  | nil => exact .inl rfl
  | cons c cs =>
      by_cases hc : isIdentStart c = true
      · refine .inr ⟨c, cs.takeWhile isIdentContinue, cs.dropWhile isIdentContinue, ?_, ?_, hc,
          fun d hd => List.mem_takeWhile_imp hd⟩
        · rw [List.cons_append, List.takeWhile_append_dropWhile]
        · unfold suffixLength
          rw [identLength, if_pos hc]
          rfl
      · unfold suffixLength
        rw [identLength, if_neg hc]
        exact .inl rfl

/-- A suffix ends by itself. -/
theorem suffixLength_take (cs : List Char) :
    suffixLength cs ≤ cs.length ∧ suffixLength (cs.take (suffixLength cs)) = suffixLength cs ∧
      ∀ c ∈ cs.take (suffixLength cs), isIdentContinue c = true := by
  rcases suffixLength_eq cs with h | ⟨c, ds, tail, rfl, h, hc, hds⟩
  · rw [h]
    exact ⟨Nat.zero_le _, rfl, fun _ h => nomatch h⟩
  · rw [h, List.take_left]
    refine ⟨?_, ?_, List.forall_mem_cons.mpr ⟨isIdentContinue_of_isIdentStart hc, hds⟩⟩
    · rw [List.length_append]
      exact Nat.le_add_right ..
    · have hself := identLength_append hc hds clear_nil
      rw [List.append_nil] at hself
      unfold suffixLength
      rw [hself]
      rfl

/-! ## Numbers -/

theorem isIdentContinue_of_hexDigit? {c : Char} {n : Nat} (h : hexDigit? c = some n) :
    isIdentContinue c = true := by
  have hascii : c.toNat < 0x80 := by
    unfold hexDigit? at h
    simp only [Bool.and_eq_true, decide_eq_true_eq] at h
    split at h
    · next hc => exact Nat.lt_of_le_of_lt (show c.toNat ≤ 57 from hc.2) (by decide)
    · split at h
      · next hc => exact Nat.lt_of_le_of_lt (show c.toNat ≤ 102 from hc.2) (by decide)
      · split at h
        · next hc => exact Nat.lt_of_le_of_lt (show c.toNat ≤ 70 from hc.2) (by decide)
        · cases h
  have hall := of_ascii (p := fun c => (hexDigit? c).isNone || isIdentContinue c)
    (by decide +kernel) hascii
  rw [h] at hall
  exact hall

section Append

variable {rest : List Char} (hrest : Clear rest)

include hrest

theorem exponentLength_append (signed valued : Bool) (u : List Char) :
    exponentLength signed valued (u ++ rest) = exponentLength signed valued u := by
  induction u generalizing signed valued with
  | nil =>
      cases rest with
      | nil => rfl
      | cons c cs =>
          have h := isBreak_spec (hrest c rfl)
          rw [List.nil_append, exponentLength, exponentLength]
          simp [h]
  | cons c u ih => rw [List.cons_append, exponentLength, exponentLength, ih, ih, ih]

theorem fractionLength_append (dotted : Bool) (u : List Char) :
    fractionLength dotted (u ++ rest) = fractionLength dotted u := by
  induction u generalizing dotted with
  | nil =>
      cases rest with
      | nil => rfl
      | cons c cs =>
          have h := isBreak_spec (hrest c rfl)
          have hne : ∀ d, isIdentContinue d = true → c ≠ d := by
            rintro d hd rfl
            rw [h.1] at hd
            cases hd
          rw [List.nil_append, fractionLength, fractionLength]
          simp [h, hne 'e' (by decide), hne 'E' (by decide)]
  | cons c u ih =>
      have hhead : (u ++ rest).head?.any (fun d => d == '.' || isIdentStart d) =
          u.head?.any fun d => d == '.' || isIdentStart d := by
        cases u with
        | nil =>
            cases rest with
            | nil => rfl
            | cons d ds =>
                have h := isBreak_spec (hrest d rfl)
                simp [h]
        | cons d u => rfl
      rw [List.cons_append, fractionLength, fractionLength, ih, ih, hhead,
        exponentLength_append hrest]

theorem floatLength_append (u : List Char) : floatLength (u ++ rest) = floatLength u := by
  cases u with
  | nil =>
      cases rest with
      | nil => rfl
      | cons c cs =>
          have h := isBreak_spec (hrest c rfl)
          simp [floatLength, h]
  | cons c u => rw [List.cons_append, floatLength, floatLength, fractionLength_append hrest]

theorem digitsLength_append (base : Nat) (empty : Bool) (u : List Char) :
    digitsLength base empty (u ++ rest) = digitsLength base empty u := by
  induction u generalizing empty with
  | nil =>
      cases rest with
      | nil => rfl
      | cons c cs =>
          have h := isBreak_spec (hrest c rfl)
          have hnone : hexDigit? c = none := by
            rw [← Option.not_isSome_iff_eq_none, Option.isSome_iff_exists]
            rintro ⟨n, hn⟩
            rw [isIdentContinue_of_hexDigit? hn] at h
            cases h.1
          rw [List.nil_append, digitsLength, digitsLength, hnone]
          simp [h]
  | cons c u ih => rw [List.cons_append, digitsLength, digitsLength, ih, ih]

theorem integerLength_append (u : List Char) : integerLength (u ++ rest) = integerLength u := by
  have hne : ∀ c ∈ rest.head?, ∀ d, isIdentContinue d = true → c ≠ d := by
    rintro c hc d hd rfl
    rw [(isBreak_spec (hrest c hc)).1] at hd
    cases hd
  -- the mark of a base stands among the first two characters
  have hmark : ∀ d cs, isIdentContinue d = true → u ++ rest = '0' :: d :: cs →
      ∃ cs', u = '0' :: d :: cs' := by
    intro d cs hd h
    match u with
    | [] => exact absurd rfl (hne '0' (by rw [List.nil_append] at h; rw [h]; rfl) '0' (by decide))
    | [c] =>
        have hrest : rest = d :: cs := (List.cons.inj h).2
        exact absurd rfl (hne d (by rw [hrest]; rfl) d hd)
    | c :: e :: u =>
        injection h with hc h
        injection h with he
        exact ⟨u, by rw [hc, he]⟩
  rw [integerLength.eq_def u]
  split
  · next cs => exact congrArg (Option.map _) (digitsLength_append hrest 16 true cs)
  · next cs => exact congrArg (Option.map _) (digitsLength_append hrest 8 true cs)
  · next cs => exact congrArg (Option.map _) (digitsLength_append hrest 2 true cs)
  · next hhex hoct hbin =>
      rw [integerLength]
      · exact digitsLength_append hrest 10 true u
      · intro cs h
        obtain ⟨cs', hu⟩ := hmark 'x' cs (by decide) h
        exact hhex cs' hu
      · intro cs h
        obtain ⟨cs', hu⟩ := hmark 'o' cs (by decide) h
        exact hoct cs' hu
      · intro cs h
        obtain ⟨cs', hu⟩ := hmark 'b' cs (by decide) h
        exact hbin cs' hu

theorem withNumberSuffix_append {u : List Char} {n : Nat} (hn : n ≤ u.length) :
    withNumberSuffix (u ++ rest) n = withNumberSuffix u n := by
  unfold withNumberSuffix
  dsimp only
  rw [List.drop_append_of_le_length hn, suffixLength_append hrest]
  have htotal : n + suffixLength (u.drop n) ≤ u.length := by
    have := (suffixLength_take (u.drop n)).1
    rw [List.length_drop] at this
    omega
  rw [List.drop_append_of_le_length htotal]
  cases u.drop (n + suffixLength (u.drop n)) with
  | nil =>
      cases rest with
      | nil => rfl
      | cons c cs =>
          have h := (isBreak_spec (hrest c rfl)).1
          simp [h]
  | cons c cs => rfl

end Append

/-! ## Numbers by themselves -/

section OfAppend

variable {w tail : List Char} {n : Nat}

theorem exponentLength_of_append {signed valued : Bool}
    (h : exponentLength signed valued (w ++ tail) = some n) (hn : n ≤ w.length) :
    exponentLength signed valued w = some n := by
  induction w generalizing signed valued n with
  | nil =>
      obtain rfl := Nat.le_zero.mp hn
      cases tail with
      | nil => exact h
      | cons c cs =>
          rw [List.nil_append, exponentLength] at h
          grind [exponentLength, Option.map_eq_some_iff]
  | cons c w ih =>
      rw [List.cons_append, exponentLength] at h
      rw [exponentLength]
      grind [Option.map_eq_some_iff, Option.map_eq_none_iff]

theorem isSome_exponentLength (signed : Bool) (cs : List Char) :
    (exponentLength signed true cs).isSome := by
  induction cs generalizing signed with
  | nil => rfl
  | cons c cs ih =>
      rw [exponentLength]
      grind [Option.isSome_map]

/-- What is no exponent does not become one by being cut off. -/
theorem exponentLength_none_of_append {signed valued : Bool}
    (h : exponentLength signed valued (w ++ tail) = none) :
    exponentLength signed valued w = none := by
  induction w generalizing signed valued with
  | nil =>
      cases valued with
      | false => rfl
      | true =>
          have hsome := isSome_exponentLength signed tail
          rw [List.nil_append] at h
          rw [h] at hsome
          cases hsome
  | cons c w ih =>
      rw [List.cons_append, exponentLength] at h
      rw [exponentLength]
      grind [Option.map_eq_some_iff, Option.map_eq_none_iff]

theorem fractionLength_of_append {dotted : Bool}
    (h : fractionLength dotted (w ++ tail) = some n) (hn : n ≤ w.length) :
    fractionLength dotted w = some n := by
  induction w generalizing dotted n with
  | nil =>
      obtain rfl := Nat.le_zero.mp hn
      cases tail with
      | nil => exact h
      | cons c cs =>
          rw [List.nil_append, fractionLength] at h
          grind [fractionLength, Option.map_eq_some_iff]
  | cons c w ih =>
      have hhead : ∀ p : Char → Bool, w.head?.any p = true → (w ++ tail).head?.any p = true := by
        intro p hp
        cases w with
        | nil => cases hp
        | cons d w => exact hp
      have hsome := @exponentLength_of_append w tail
      have hnone := @exponentLength_none_of_append w tail
      rw [List.cons_append, fractionLength] at h
      rw [fractionLength]
      split at h
      · grind [Option.map_eq_some_iff]
      · split at h
        · grind [Option.map_eq_some_iff]
        · grind

theorem digitsLength_of_append {base : Nat} {empty : Bool}
    (h : digitsLength base empty (w ++ tail) = some n) (hn : n ≤ w.length) :
    digitsLength base empty w = some n := by
  induction w generalizing empty n with
  | nil =>
      obtain rfl := Nat.le_zero.mp hn
      cases tail with
      | nil => exact h
      | cons c cs =>
          rw [List.nil_append, digitsLength] at h
          grind [digitsLength, Option.map_eq_some_iff]
  | cons c w ih =>
      rw [List.cons_append, digitsLength] at h
      rw [digitsLength]
      grind [Option.map_eq_some_iff, Option.map_eq_none_iff]

theorem floatLength_of_append (h : floatLength (w ++ tail) = some n) (hn : n ≤ w.length) :
    floatLength w = some n := by
  cases w with
  | nil =>
      obtain rfl := Nat.le_zero.mp hn
      cases tail with
      | nil => exact h
      | cons c cs =>
          rw [List.nil_append, floatLength] at h
          grind [Option.map_eq_some_iff]
  | cons c w =>
      rw [List.cons_append, floatLength] at h
      rw [floatLength]
      have hfraction := @fractionLength_of_append w tail
      grind [Option.map_eq_some_iff]

theorem integerLength_of_append (h : integerLength (w ++ tail) = some n) (hn : n ≤ w.length) :
    integerLength w = some n := by
  have hbase : ∀ {base m : Nat} {cs : List Char} {d : Char}, w ++ tail = '0' :: d :: cs →
      digitsLength base true cs = some m → m + 2 ≤ w.length →
        ∃ w', w = '0' :: d :: w' ∧ digitsLength base true w' = some m := by
    intro base m cs d hcs hm hle
    match w with
    | [] => cases hle
    | [_] => exact absurd hle (by simp)
    | c :: e :: w =>
        injection hcs with hc hcs
        injection hcs with he hcs
        subst hc he hcs
        exact ⟨w, rfl, digitsLength_of_append hm (by simpa using hle)⟩
  rw [integerLength.eq_def] at h
  split at h
  · next cs hcs =>
      obtain ⟨m, hm, rfl⟩ := Option.map_eq_some_iff.mp h
      obtain ⟨w', rfl, hw⟩ := hbase hcs hm hn
      exact congrArg (Option.map _) hw
  · next cs hcs =>
      obtain ⟨m, hm, rfl⟩ := Option.map_eq_some_iff.mp h
      obtain ⟨w', rfl, hw⟩ := hbase hcs hm hn
      exact congrArg (Option.map _) hw
  · next cs hcs =>
      obtain ⟨m, hm, rfl⟩ := Option.map_eq_some_iff.mp h
      obtain ⟨w', rfl, hw⟩ := hbase hcs hm hn
      exact congrArg (Option.map _) hw
  · next hhex hoct hbin =>
      rw [integerLength]
      · exact digitsLength_of_append h hn
      · exact fun cs hw => hhex (cs ++ tail) (by rw [hw]; rfl)
      · exact fun cs hw => hoct (cs ++ tail) (by rw [hw]; rfl)
      · exact fun cs hw => hbin (cs ++ tail) (by rw [hw]; rfl)

end OfAppend

theorem exponentLength_le {signed valued : Bool} {cs : List Char} {n : Nat}
    (h : exponentLength signed valued cs = some n) : n ≤ cs.length := by
  induction cs generalizing signed valued n with
  | nil => grind [exponentLength]
  | cons c cs ih =>
      rw [exponentLength] at h
      grind [Option.map_eq_some_iff]

theorem fractionLength_le {dotted : Bool} {cs : List Char} {n : Nat}
    (h : fractionLength dotted cs = some n) : n ≤ cs.length := by
  induction cs generalizing dotted n with
  | nil => grind [fractionLength]
  | cons c cs ih =>
      have hle := @exponentLength_le false false cs
      rw [fractionLength] at h
      grind [Option.map_eq_some_iff]

theorem floatLength_le {cs : List Char} {n : Nat} (h : floatLength cs = some n) :
    n ≤ cs.length := by
  cases cs with
  | nil => cases h
  | cons c cs =>
      have hle := @fractionLength_le false cs
      rw [floatLength] at h
      grind [Option.map_eq_some_iff]

/-- The digits of an integer are characters of words. -/
theorem digitsLength_spec {base : Nat} {empty : Bool} {cs : List Char} {n : Nat}
    (h : digitsLength base empty cs = some n) :
    n ≤ cs.length ∧ ∀ c ∈ cs.take n, isIdentContinue c = true := by
  induction cs generalizing empty n with
  | nil =>
      rw [digitsLength] at h
      grind
  | cons c cs ih =>
      have hhex := @isIdentContinue_of_hexDigit? c
      have hline : isIdentContinue '_' = true := by decide
      rw [digitsLength] at h
      grind [Option.map_eq_some_iff]

theorem integerLength_spec {cs : List Char} {n : Nat} (h : integerLength cs = some n) :
    n ≤ cs.length ∧ ∀ c ∈ cs.take n, isIdentContinue c = true := by
  have hbase : ∀ {base m : Nat} {d : Char} {cs : List Char}, isIdentContinue d = true →
      digitsLength base true cs = some m → m + 2 ≤ ('0' :: d :: cs).length ∧
        ∀ c ∈ ('0' :: d :: cs).take (m + 2), isIdentContinue c = true := by
    intro base m d cs hd hm
    obtain ⟨hle, hall⟩ := digitsLength_spec hm
    refine ⟨Nat.add_le_add_right hle 2, ?_⟩
    rw [List.take_succ_cons, List.take_succ_cons]
    exact List.forall_mem_cons.mpr ⟨by decide, List.forall_mem_cons.mpr ⟨hd, hall⟩⟩
  rw [integerLength.eq_def] at h
  split at h
  · obtain ⟨m, hm, rfl⟩ := Option.map_eq_some_iff.mp h
    exact hbase (by decide) hm
  · obtain ⟨m, hm, rfl⟩ := Option.map_eq_some_iff.mp h
    exact hbase (by decide) hm
  · obtain ⟨m, hm, rfl⟩ := Option.map_eq_some_iff.mp h
    exact hbase (by decide) hm
  · exact digitsLength_spec h

/-- A number and its suffix, and the end of both. -/
theorem withNumberSuffix_eq_some {cs : List Char} {n total : Nat}
    (h : withNumberSuffix cs n = some total) : total = n + suffixLength (cs.drop n) ∧
      ∀ c ∈ (cs.drop total).head?, isIdentContinue c = false := by
  unfold withNumberSuffix at h
  dsimp only at h
  split at h
  · cases h
  · next hhead =>
      obtain rfl := Option.some.inj h
      refine ⟨rfl, fun c hc => ?_⟩
      rw [Option.mem_def.mp hc, Option.any_some, Bool.not_eq_true] at hhead
      exact hhead

theorem withNumberSuffix_le {cs : List Char} {n total : Nat}
    (h : withNumberSuffix cs n = some total) (hn : n ≤ cs.length) :
    n ≤ total ∧ total ≤ cs.length := by
  obtain ⟨rfl, -⟩ := withNumberSuffix_eq_some h
  have hle := (suffixLength_take (cs.drop n)).1
  rw [List.length_drop] at hle
  omega

theorem withNumberSuffix_take {cs : List Char} {n total : Nat}
    (h : withNumberSuffix cs n = some total) :
    withNumberSuffix (cs.take total) n = some total := by
  obtain ⟨rfl, -⟩ := withNumberSuffix_eq_some h
  have hdrop : (cs.take (n + suffixLength (cs.drop n))).drop n =
      (cs.drop n).take (suffixLength (cs.drop n)) := by
    rw [List.drop_take, Nat.add_sub_cancel_left]
  unfold withNumberSuffix
  dsimp only
  rw [hdrop, (suffixLength_take _).2.1, List.drop_take, Nat.sub_self, List.take_zero]
  rfl

/-- A number is one by itself. -/
theorem numberLength_take {cs : List Char} {n : Nat} (h : numberLength cs = some n) :
    n ≤ cs.length ∧ numberLength (cs.take n) = some n := by
  unfold numberLength at h ⊢
  rcases Option.or_eq_some_iff.mp h with h | ⟨-, h⟩
  · obtain ⟨m, hm, hn⟩ := Option.bind_eq_some_iff.mp h
    obtain ⟨hle, htotal⟩ := withNumberSuffix_le hn (floatLength_le hm)
    rw [← List.take_append_drop n cs] at hm
    rw [floatLength_of_append hm (by rwa [List.length_take_of_le htotal]), Option.bind_some,
      withNumberSuffix_take hn]
    exact ⟨htotal, rfl⟩
  · obtain ⟨m, hm, hn⟩ := Option.bind_eq_some_iff.mp h
    obtain ⟨hlength, hdigits⟩ := integerLength_spec hm
    obtain ⟨hle, htotal⟩ := withNumberSuffix_le hn hlength
    have hwhole : ∀ c ∈ cs.take n, isIdentContinue c = true := by
      obtain ⟨rfl, -⟩ := withNumberSuffix_eq_some hn
      rw [List.take_add]
      exact List.forall_mem_append.mpr ⟨hdigits, (suffixLength_take _).2.2⟩
    -- a fraction in front could only be the whole text again
    have hfloat : ∀ t, (floatLength (cs.take n)).bind (withNumberSuffix (cs.take n)) = some t →
        t = n := by
      intro t ht
      obtain ⟨m', hm', ht⟩ := Option.bind_eq_some_iff.mp ht
      obtain ⟨-, hend⟩ := withNumberSuffix_eq_some ht
      have hbound := (withNumberSuffix_le ht (floatLength_le hm')).2
      cases htail : (cs.take n).drop t with
      | nil =>
          have := List.drop_eq_nil_iff.mp htail
          rw [List.length_take_of_le htotal] at this hbound
          exact Nat.le_antisymm hbound this
      | cons c tail =>
          have hc : c ∈ cs.take n := List.mem_of_mem_drop (by rw [htail]; exact List.mem_cons_self)
          have := hend c (by rw [htail]; rfl)
          rw [hwhole c hc] at this
          cases this
    refine ⟨htotal, ?_⟩
    rw [← List.take_append_drop n cs] at hm
    rw [integerLength_of_append hm (by rwa [List.length_take_of_le htotal]), Option.bind_some,
      withNumberSuffix_take hn]
    cases hcut : (floatLength (cs.take n)).bind (withNumberSuffix (cs.take n)) with
    | none => rfl
    | some t =>
        rw [hfloat t hcut]
        rfl

theorem numberLength_append {w rest : List Char} (h : numberLength w = some w.length)
    (hrest : Clear rest) : numberLength (w ++ rest) = some w.length := by
  have hfloat : (floatLength w).bind (withNumberSuffix (w ++ rest)) =
      (floatLength w).bind (withNumberSuffix w) := by
    cases hm : floatLength w with
    | none => rfl
    | some m => exact withNumberSuffix_append hrest (floatLength_le hm)
  have hinteger : (integerLength w).bind (withNumberSuffix (w ++ rest)) =
      (integerLength w).bind (withNumberSuffix w) := by
    cases hm : integerLength w with
    | none => rfl
    | some m => exact withNumberSuffix_append hrest (integerLength_spec hm).1
  unfold numberLength at h ⊢
  rw [floatLength_append hrest, integerLength_append hrest, hfloat, hinteger, h]

/-! ## Literals -/

theorem quotedLength_of_isDigit {c : Char} {cs : List Char} (hc : c.isDigit = true) :
    quotedLength (c :: cs) = none := by
  have hne : ∀ d : Char, d.isDigit = false → c ≠ d := by
    rintro d hd rfl
    rw [hc] at hd
    cases hd
  unfold quotedLength
  split
  · exact absurd (List.cons.inj ‹c :: cs = _›).1 (hne _ (by decide))
  · exact absurd (List.cons.inj ‹c :: cs = _›).1 (hne _ (by decide))
  · exact absurd (List.cons.inj ‹c :: cs = _›).1 (hne _ (by decide))
  · exact absurd (List.cons.inj ‹c :: cs = _›).1 (hne _ (by decide))
  · exact absurd (List.cons.inj ‹c :: cs = _›).1 (hne _ (by decide))
  · exact absurd (List.cons.inj ‹c :: cs = _›).1 (hne _ (by decide))
  · exact absurd (List.cons.inj ‹c :: cs = _›).1 (hne _ (by decide))
  · unfold cookedLength
    split
    · exact absurd (List.cons.inj ‹c :: cs = _›).1 (hne _ (by decide))
    · rfl

/-- A number is a literal, whatever comes behind its first digit. -/
theorem length?_of_numberLength {w rest : List Char} {n : Nat} (h : numberLength w = some n)
    (hrest : numberLength (w ++ rest) = some n) : length? (w ++ rest) = some n := by
  cases w with
  | nil => cases h
  | cons c w =>
      have hc : c.isDigit = true := by
        by_contra hc
        rw [Lexeme.numberLength_of_not_digit (Bool.not_eq_true _ ▸ hc)] at h
        cases h
      unfold length?
      rw [List.cons_append, quotedLength_of_isDigit hc, ← List.cons_append, hrest]
      rfl

theorem length?_placeholder (rest : List Char) :
    length? (placeholder ++ rest) = some placeholder.length := by
  have hquoted : quotedLength (placeholder ++ rest) = none := rfl
  have hnumber : numberLength (placeholder ++ rest) = none :=
    Lexeme.numberLength_of_not_digit (by decide)
  unfold length? placeholderLength
  rw [hquoted, hnumber, if_pos (List.isPrefixOf_iff_prefix.mpr (List.prefix_append ..))]
  rfl

/-- What is a literal and not quoted is a number or the placeholder. -/
theorem length?_cases {cs : List Char} {n : Nat} (h : length? cs = some n) :
    (∃ m, quotedLength cs = some m ∧ n = m + suffixLength (cs.drop m)) ∨
      numberLength cs = some n ∨ ∃ tail, cs = placeholder ++ tail ∧ n = placeholder.length := by
  unfold length? at h
  split at h
  · next m hm => exact .inl ⟨m, hm, (Option.some.inj h).symm⟩
  · refine .inr ((Option.or_eq_some_iff.mp h).imp_right fun ⟨_, h⟩ => ?_)
    obtain ⟨hopening, h⟩ := Option.ite_none_right_eq_some.mp h
    obtain ⟨tail, rfl⟩ := List.isPrefixOf_iff_prefix.mp hopening
    exact ⟨tail, rfl, (Option.some.inj h).symm⟩

theorem length?_of_quotedLength {cs : List Char} {m : Nat} (h : quotedLength cs = some m) :
    length? cs = some (m + suffixLength (cs.drop m)) := by
  unfold length?
  rw [h]

/-- A literal is one by itself. -/
theorem length?_take {cs : List Char} {n : Nat} (h : length? cs = some n) :
    n ≤ cs.length ∧ length? (cs.take n) = some n := by
  rcases length?_cases h with ⟨m, hm, rfl⟩ | hnumber | ⟨tail, rfl, rfl⟩
  · obtain ⟨w, tail, rfl, rfl, hw⟩ := ends_quotedLength cs m hm
    rw [List.drop_left]
    obtain ⟨hle, hself, -⟩ := suffixLength_take tail
    refine ⟨by rw [List.length_append]; exact Nat.add_le_add_left hle _, ?_⟩
    rw [List.take_length_add_append, length?_of_quotedLength (hw _), List.drop_left, hself]
  · obtain ⟨hle, hself⟩ := numberLength_take hnumber
    refine ⟨hle, ?_⟩
    rw [← List.append_nil (cs.take n)]
    exact length?_of_numberLength hself (by rwa [List.append_nil])
  · rw [List.take_left, List.length_append]
    exact ⟨Nat.le_add_right .., length?_placeholder []⟩

/-- A literal is read again in front of a break. -/
theorem length?_append {w rest : List Char} (h : length? w = some w.length)
    (hrest : Clear rest) : length? (w ++ rest) = some w.length := by
  rcases length?_cases h with ⟨m, hm, hlength⟩ | hnumber | ⟨tail, rfl, hlength⟩
  · obtain ⟨u, tail, rfl, rfl, hu⟩ := ends_quotedLength w m hm
    rw [List.drop_left] at hlength
    rw [List.append_assoc, length?_of_quotedLength (hu _), List.drop_left,
      suffixLength_append hrest, hlength]
  · exact length?_of_numberLength hnumber (numberLength_append hnumber hrest)
  · rw [hlength, List.append_assoc]
    exact length?_placeholder _

end GrammarCompiler.Literal
