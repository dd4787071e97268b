import GrammarCompiler.Proofs.TokenTree.Literals
import GrammarCompiler.Text.Quoted

/-!
# Reading a quoted text again

A text that the program puts in quotes is read as one literal (`length?_literalText`): every
character is written as itself or as an escape that leads the automaton of quoted literals back to
where it was.
-/

namespace GrammarCompiler.Literal

open Text Quote

/-- Some characters lead from between two characters of a text to there again. -/
def Returns (u : List Char) : Prop :=
  ∀ v, untilQuote .text .body (u ++ v) = (untilQuote .text .body v).map (· + u.length)

theorem Returns.nil : Returns [] := fun _ => Option.map_id'.symm

theorem Returns.append {u u' : List Char} (h : Returns u) (h' : Returns u') : Returns (u ++ u') := by
  intro v
  rw [List.append_assoc, h, h', Option.map_map, List.length_append]
  refine congrArg (Option.map · _) (funext fun n => ?_)
  show n + u'.length + u.length = _
  omega

theorem untilQuote_cons (mode next : Mode) (c : Char) (hend : (c = '"' && mode.mayEnd) = false)
    (hstep : step .text mode c = some next) (v : List Char) :
    untilQuote .text mode (c :: v) = (untilQuote .text next v).map (· + 1) := by
  rw [untilQuote, if_neg (by rw [hend]; exact Bool.false_ne_true), hstep, Option.bind_eq_bind,
    Option.bind_some]
  cases untilQuote .text next v <;> rfl

theorem returns_plain {c : Char} (hquote : c ≠ '"') (hslash : c ≠ '\\') (hreturn : c ≠ '\r') :
    Returns [c] := by
  refine fun v => untilQuote_cons .body .body c (by simp [hquote]) ?_ v
  show bodyStep .text c = some .body
  unfold bodyStep
  split
  · exact absurd rfl hreturn
  · exact absurd rfl hslash
  · rfl

theorem returns_escape {c : Char} (h : escapeStep .text c = some .body) : Returns ['\\', c] := by
  intro v
  have hslash := untilQuote_cons .body .escape '\\' (by decide) rfl
    (c :: v)
  have hescape := untilQuote_cons .escape _ c (by simp [Mode.mayEnd]) h v
  rw [hescape, Option.map_map] at hslash
  exact hslash

/-! ## Numbered characters -/

theorem hexDigit?_digitChar {n : Nat} (h : n < 16) : hexDigit? n.digitChar = some n := by
  have hall : ∀ n < 16, hexDigit? (Nat.digitChar n) = some n := by decide
  exact hall n h

theorem codeStep_digitChar {n : Nat} (digits value : Nat) (hn : n < 16) (hdigits : digits < 6) :
    codeStep .text digits value n.digitChar = some (.code (digits + 1) (value * 16 + n)) := by
  have hne : ∀ c, hexDigit? c = none → n.digitChar ≠ c := by
    rintro c hc rfl
    rw [hexDigit?_digitChar hn] at hc
    cases hc
  unfold codeStep
  split
  · exact absurd ‹_› (hne '_' (by decide))
  · exact absurd ‹_› (hne '}' (by decide))
  · rw [hexDigit?_digitChar hn]
    exact if_neg (Nat.ne_of_lt hdigits)

/-- The digits of a number lead to its value. -/
theorem untilQuote_toDigits (n : Nat) (v : List Char) (h : (Nat.toDigits 16 n).length ≤ 6) :
    untilQuote .text (.code 0 0) (Nat.toDigits 16 n ++ v) =
      (untilQuote .text (.code (Nat.toDigits 16 n).length n) v).map
        (· + (Nat.toDigits 16 n).length) := by
  induction n using Nat.strongRecOn generalizing v with
  | ind n ih =>
      by_cases hn : n < 16
      · have hstep := codeStep_digitChar 0 0 hn (by decide)
        rw [Nat.zero_mul, Nat.zero_add 1, Nat.zero_add n] at hstep
        rw [Nat.toDigits_of_lt_base hn, List.singleton_append]
        exact untilQuote_cons (.code 0 0) _ _ (by simp [Mode.mayEnd]) hstep v
      · have hdiv : n / 16 < n := Nat.div_lt_self (by omega) (by decide)
        rw [Nat.toDigits_of_base_le (by decide) (Nat.le_of_not_lt hn)] at h ⊢
        rw [List.length_append, List.length_singleton] at h ⊢
        have hstep := codeStep_digitChar _ (n / 16) (Nat.mod_lt n (show 0 < 16 by decide))
          (show (Nat.toDigits 16 (n / 16)).length < 6 by omega)
        rw [Nat.div_add_mod' n 16] at hstep
        rw [List.append_assoc, ih (n / 16) hdiv _ (by omega), List.singleton_append,
          untilQuote_cons (.code _ _) _ _ (by simp [Mode.mayEnd]) hstep, Option.map_map]
        refine congrArg (Option.map · _) (funext fun k => ?_)
        show k + 1 + _ = _
        omega

theorem returns_numericEscape (c : Char) : Returns (numericEscape c).toList := by
  have hvalid : c.toNat < 0xd800 ∨ (0xdfff < c.toNat ∧ c.toNat < 0x110000) := c.valid
  have hscalar : isScalar c.toNat = true := by
    unfold isScalar
    simpa using hvalid
  have hlength : (Nat.toDigits 16 c.toNat).length ≤ 6 :=
    (Nat.length_toDigits_le_iff (by decide) (by decide)).mpr (by omega)
  have hpos : 0 < (Nat.toDigits 16 c.toNat).length := Nat.length_toDigits_pos
  intro v
  have hend := untilQuote_cons (.code (Nat.toDigits 16 c.toNat).length c.toNat) .body '}' (by simp [Mode.mayEnd])
    (by
      show (if _ then none else some Mode.body) = _
      rw [if_neg (by simp [hscalar, Nat.ne_of_gt hpos])]) v
  have hcode := untilQuote_toDigits c.toNat ('}' :: v) hlength
  have hopen := untilQuote_cons .brace (.code 0 0) '{' (by decide) rfl
    (Nat.toDigits 16 c.toNat ++ '}' :: v)
  have hu := untilQuote_cons .escape .brace 'u' (by decide) rfl
    ('{' :: (Nat.toDigits 16 c.toNat ++ '}' :: v))
  have hslash := untilQuote_cons .body .escape '\\' (by decide) rfl
    ('u' :: '{' :: (Nat.toDigits 16 c.toNat ++ '}' :: v))
  rw [hu, hopen, hcode, hend, Option.map_map, Option.map_map, Option.map_map, Option.map_map]
    at hslash
  have htext : (numericEscape c).toList =
      '\\' :: 'u' :: '{' :: (Nat.toDigits 16 c.toNat ++ ['}']) := by
    unfold numericEscape
    simp
  rw [htext]
  simp only [List.cons_append, List.append_assoc, List.nil_append]
  rw [hslash]
  refine congrArg (Option.map · _) (funext fun n => ?_)
  simp only [Function.comp_apply, List.length_cons, List.length_append, List.length_nil]
  omega

theorem returns_quotedChar (c : Char) : Returns (quotedChar c).toList := by
  unfold quotedChar
  split
  · exact returns_escape rfl
  · exact returns_escape rfl
  · exact returns_escape rfl
  · exact returns_escape rfl
  · exact returns_escape rfl
  · exact returns_escape rfl
  · next hreturn hslash hquote =>
      split
      · exact returns_numericEscape c
      · rw [Char.toString, String.toList_singleton]
        exact returns_plain hquote hslash hreturn

/-- The escape of NUL in front of a digit. -/
theorem returns_nul : Returns "\\x00".toList := by
  intro v
  rw [show "\\x00".toList = ['\\', 'x', '0', '0'] by decide]
  have hlast := untilQuote_cons (.hexTail 0) .body '0' (by decide) rfl v
  have hfirst := untilQuote_cons .hex (.hexTail 0) '0' (by decide) rfl
    ('0' :: v)
  have hx := untilQuote_cons .escape .hex 'x' (by decide) rfl
    ('0' :: '0' :: v)
  have hslash := untilQuote_cons .body .escape '\\' (by decide) rfl
    ('x' :: '0' :: '0' :: v)
  rw [hx, hfirst, hlast, Option.map_map, Option.map_map, Option.map_map] at hslash
  exact hslash

theorem returns_literalBody (cs : List Char) : Returns (literalBody cs).toList := by
  fun_induction literalBody cs with
  | case1 => exact .nil
  | case2 c cs ih =>
      rw [String.toList_append]
      refine Returns.append ?_ ih
      split
      · exact returns_nul
      · exact returns_escape rfl
  | case3 c cs h ih =>
      rw [String.toList_append]
      exact (returns_quotedChar c).append ih

/-- A text in quotes is one literal. -/
theorem length?_literalText (s : String) :
    length? (literalText s).toList = some (literalText s).toList.length := by
  have htext : (literalText s).toList = '"' :: ((literalBody s.toList).toList ++ ['"']) := by
    unfold literalText
    simp
  have hquoted : quotedLength (literalText s).toList = some (literalText s).toList.length := by
    rw [htext]
    show (untilQuote .text .body _).map _ = _
    rw [returns_literalBody]
    simp [untilQuote, Mode.mayEnd, Nat.add_comm]
  rw [length?_of_quotedLength hquoted, List.drop_length]
  rfl

end GrammarCompiler.Literal
