import GrammarCompiler.TokenTree.Lexeme
import Mathlib.Tactic.Tauto

/-!
# Characters of words

The characters of identifiers are none of those with a meaning of their own: no blanks, quotes,
punctuation or delimiters. For ASCII this is checked character by character, beyond it range by
range.
-/

namespace GrammarCompiler

namespace Text

/-- No range of one table overlaps one of the other. -/
def Ranges.apart (table other : Ranges) : Bool :=
  table.all fun x => other.all fun y => x.2 < y.1 || y.2 < x.1

theorem Ranges.not_covers {table other : Ranges} (h : table.apart other = true) {c : Char}
    (hc : table.covers c = true) : other.covers c = false := by
  rw [Bool.eq_false_iff]
  intro hother
  obtain ⟨x, hx, hcx⟩ := List.any_eq_true.mp hc
  obtain ⟨y, hy, hcy⟩ := List.any_eq_true.mp hother
  have hxy := List.all_eq_true.mp (List.all_eq_true.mp h x hx) y hy
  simp only [Bool.and_eq_true, Bool.or_eq_true, decide_eq_true_eq] at hcx hcy hxy
  omega

/-- A property of all ASCII characters can be checked on their numbers. -/
theorem of_ascii {p : Char → Bool} (h : (List.range 128).all (fun n => p (Char.ofNat n)) = true)
    {c : Char} (hc : c.toNat < 0x80) : p c = true := by
  have := List.all_eq_true.mp h c.toNat (List.mem_range.mpr hc)
  rwa [Char.ofNat_toNat] at this

/-- The characters that mean something by themselves. -/
def isSpecial (c : Char) : Bool :=
  isGap c || Lexeme.punctuation.contains c || "\"()[]\x7b\x7d".toList.contains c

theorem isSpecial_of_not_ascii {c : Char} (hc : ¬c.toNat < 0x80) :
    isSpecial c = isGap c := by
  have hmem : ∀ l : List Char, l.all (fun d => d.toNat < 0x80) = true → l.contains c = false := by
    intro l hl
    rw [Bool.eq_false_iff]
    intro hcontains
    have := List.all_eq_true.mp hl c (List.contains_iff_mem.mp hcontains)
    exact hc (by simpa using this)
  unfold isSpecial
  rw [hmem _ (by decide), hmem _ (by decide), Bool.or_false, Bool.or_false]

theorem not_isSpecial_of_isIdentContinue {c : Char} (h : isIdentContinue c = true) :
    isSpecial c = false := by
  by_cases hc : c.toNat < 0x80
  · have hall := of_ascii (p := fun c => !isIdentContinue c || !isSpecial c) (by decide +kernel) hc
    simpa [h] using hall
  · rw [isSpecial_of_not_ascii hc]
    unfold isIdentContinue at h
    rw [if_neg hc] at h
    have hblank : blankRanges.covers c = false := by
      rcases Bool.or_eq_true _ _ |>.mp h with h | h
      · exact Ranges.not_covers (by decide +kernel) h
      · exact Ranges.not_covers (by decide +kernel) h
    have hmarks : Ranges.covers [(0x200e, 0x200f)] c = false := by
      rcases Bool.or_eq_true _ _ |>.mp h with h | h
      · exact Ranges.not_covers (by decide +kernel) h
      · exact Ranges.not_covers (by decide +kernel) h
    have hne : ∀ d : Char, Ranges.covers [(0x200e, 0x200f)] d = true → (c == d) = false := by
      intro d hd
      rw [beq_eq_false_iff_ne]
      rintro rfl
      rw [hd] at hmarks
      cases hmarks
    unfold isGap isBlank
    rw [hblank, hne _ (by decide), hne _ (by decide)]
    rfl

theorem not_isDigit_of_isIdentStart {c : Char} (h : isIdentStart c = true) :
    c.isDigit = false := by
  by_cases hc : c.toNat < 0x80
  · have hall := of_ascii (p := fun c => !isIdentStart c || !c.isDigit) (by decide +kernel) hc
    simpa [h] using hall
  · rw [Bool.eq_false_iff]
    intro hdigit
    simp only [Char.isDigit, Bool.and_eq_true, decide_eq_true_eq] at hdigit
    have : c.toNat ≤ 57 := hdigit.2
    omega

end Text

end GrammarCompiler
