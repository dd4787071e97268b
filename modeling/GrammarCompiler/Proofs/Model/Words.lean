import GrammarCompiler.Proofs.IntervalSet.Reachable
import GrammarCompiler.Proofs.Model.TestSet
import Mathlib.Algebra.Group.Nat.Defs

/-!
# The words of test sets

A word reaches from its shift over as many types as it has bits. A type goes into the last word if
that word reaches to it, and opens a word otherwise. Types come in increasing order, so the last
word always begins before all types to come (`Filling`), and a type in a word is neither before the
shift nor behind the last bit. Hence the bits of a word are exactly its types (`Bitset.Exact`), and
no step of the computation leaves the machine limits.
-/

namespace GrammarCompiler

open Text (minInt32 maxInt32)

namespace Bitset

variable {word : Bitset} {wordSize t : Int}

/-- The types of a word are within its reach, and its bits are set for them alone. -/
structure Exact (wordSize : Int) (word : Bitset) : Prop where
  reached : ∀ t ∈ word.tokens, 0 ≤ t - word.shift ∧ t - word.shift < wordSize
  bits : ∀ k : Nat, word.bits.testBit k = true ↔ word.shift + k ∈ word.tokens

theorem exact_startingAt (wordSize shift : Int) : (startingAt shift).Exact wordSize :=
  ⟨nofun, fun k => by simp [startingAt]⟩

/-- Adding a type sets one bit. -/
theorem testBit_add (h : word.shift ≤ t) (k : Nat) :
    (word.add t).bits.testBit k = true ↔ word.bits.testBit k = true ∨ word.shift + k = t := by
  simp only [add, Nat.testBit_or, Nat.one_shiftLeft, Nat.testBit_two_pow, Bool.or_eq_true,
    decide_eq_true_eq]
  exact or_congr Iff.rfl ⟨fun h => by omega, fun h => by omega⟩

theorem Exact.add (h : word.Exact wordSize) (hle : word.shift ≤ t)
    (hlt : t - word.shift < wordSize) : (word.add t).Exact wordSize where
  reached := by
    intro u hu
    rcases List.mem_append.mp hu with hu | hu
    · exact h.reached u hu
    · obtain rfl := List.mem_singleton.mp hu
      exact ⟨Int.sub_nonneg.mpr hle, hlt⟩
  bits := by
    intro k
    rw [testBit_add hle, h.bits]
    simp only [Bitset.add, List.mem_append, List.mem_singleton]

/-- The bits of a word fit into it. -/
theorem Exact.bits_lt (h : word.Exact wordSize) : word.bits < 2 ^ wordSize.toNat := by
  refine Nat.lt_pow_two_of_testBit _ fun k hk => ?_
  rw [← Bool.not_eq_true, h.bits]
  intro hmem
  have := (h.reached _ hmem).2
  omega

end Bitset

namespace TestSet

variable {wordSize t : Int} {fromZero : Bool} {words : List Bitset} {word : Bitset}
  {types : List Int}

/-- A new word reaches to the type that it is opened for. -/
theorem shiftFor_spec (hsize : 1 ≤ wordSize) (fromZero : Bool) (t : Int) :
    shiftFor wordSize fromZero t ≤ t ∧ t - shiftFor wordSize fromZero t < wordSize ∧
      (shiftFor wordSize fromZero t = 0 ∨ shiftFor wordSize fromZero t = t) := by
  unfold shiftFor
  split
  · next h =>
    simp only [Bool.and_eq_true, decide_eq_true_eq] at h
    omega
  · omega

/-! ## Filling words -/

/-- The words so far are exact, and the last of them does not begin behind a type to come. -/
structure Filling (wordSize : Int) (words : List Bitset) (types : List Int) : Prop where
  exact : ∀ word ∈ words, word.Exact wordSize
  begun : ∀ word, words.head? = some word → ∀ t ∈ types, word.shift ≤ t

/-- The last word takes a type that it reaches to. -/
theorem Filling.add (h : Filling wordSize (word :: words) (t :: types))
    (hreaches : word.reaches wordSize t = true) :
    Filling wordSize (word.add t :: words) types := by
  obtain ⟨hword, hwords⟩ := List.forall_mem_cons.mp h.exact
  obtain ⟨hle, hbegun⟩ := List.forall_mem_cons.mp (h.begun word rfl)
  have hlt : t - word.shift < wordSize := by
    have := of_decide_eq_true hreaches
    omega
  refine ⟨List.forall_mem_cons.mpr ⟨hword.add hle hlt, hwords⟩, fun last hlast => ?_⟩
  obtain rfl := Option.some.inj hlast
  exact hbegun

/-- A type opens a word; those behind it are larger. -/
theorem Filling.next (h : Filling wordSize words (t :: types)) (hsize : 1 ≤ wordSize)
    (fromZero : Bool) (hlater : ∀ u ∈ types, t < u) :
    Filling wordSize ((Bitset.startingAt (shiftFor wordSize fromZero t)).add t :: words) types := by
  obtain ⟨hle, hlt, -⟩ := shiftFor_spec hsize fromZero t
  have hnew := (Bitset.exact_startingAt wordSize (shiftFor wordSize fromZero t)).add hle hlt
  refine ⟨List.forall_mem_cons.mpr ⟨hnew, h.exact⟩, fun last hlast u hu => ?_⟩
  obtain rfl := Option.some.inj hlast
  exact Int.le_trans hle (Int.le_of_lt (hlater u hu))

theorem exact_pack (hsize : 1 ≤ wordSize) (fromZero : Bool) (h : Filling wordSize words types)
    (hincrease : types.Pairwise (· < ·)) :
    ∀ word ∈ pack wordSize fromZero words types, word.Exact wordSize := by
  induction types generalizing words with
  | nil =>
      intro word hword
      cases words with
      | nil => cases hword
      | cons last words => exact h.exact word (List.mem_reverse.mp hword)
  | cons t types ih =>
      obtain ⟨hlater, hincrease⟩ := List.pairwise_cons.mp hincrease
      cases words with
      | nil =>
          rw [pack]
          exact ih (h.next hsize fromZero hlater) hincrease
      | cons last words =>
          rw [pack]
          split
          · next hreaches => exact ih (h.add hreaches) hincrease
          · exact ih (h.next hsize fromZero hlater) hincrease

/-- The words of a set are exact, however they are chosen. -/
theorem exact_words {set : IntervalSet} (hset : set.Canonical) (hsize : 1 ≤ wordSize)
    (fromZero : Bool) : ∀ word ∈ TestSet.words set wordSize fromZero, word.Exact wordSize :=
  exact_pack hsize fromZero ⟨nofun, nofun⟩ (IntervalSet.pairwise_toList hset)

theorem exact_ofSet {set : IntervalSet} (hset : set.Canonical) (hsize : 1 ≤ wordSize) :
    ∀ word ∈ (ofSet set wordSize).bitsets, word.Exact wordSize := by
  unfold ofSet
  dsimp only
  split
  · exact exact_words hset hsize true
  · exact exact_words hset hsize false

/-- A type is in a set if a word reaches to it and has its bit. -/
theorem exists_testBit_iff {test : TestSet} (h : ∀ word ∈ test.bitsets, word.Exact wordSize)
    (t : Int) :
    t ∈ test.tokens ↔ ∃ word ∈ test.bitsets, 0 ≤ t - word.shift ∧ t - word.shift < wordSize ∧
      word.bits.testBit (t - word.shift).toNat = true := by
  unfold tokens
  rw [List.mem_flatMap]
  refine exists_congr fun word => and_congr_right fun hword => ?_
  have hexact := h word hword
  constructor
  · intro ht
    obtain ⟨hle, hlt⟩ := hexact.reached t ht
    refine ⟨hle, hlt, (hexact.bits _).mpr ?_⟩
    rwa [Int.toNat_of_nonneg hle, Int.add_comm, Int.sub_add_cancel]
  · rintro ⟨hle, -, hbit⟩
    have hmem := (hexact.bits _).mp hbit
    rwa [Int.toNat_of_nonneg hle, Int.add_comm, Int.sub_add_cancel] at hmem

/-! ## Machine limits -/

/-- Whether a number is a symbol: a code point, a token type that is as small, the end of the input
or the mark below it. -/
def IsSymbol (n : Int) : Prop :=
  -2 ≤ n ∧ n ≤ 0x10FFFF

instance (n : Int) : Decidable (IsSymbol n) :=
  inferInstanceAs (Decidable (_ ∧ _))

/-- What is computed stays within a word of a symbol. -/
theorem isInt32_of_near {n : Int} (hfirst : -128 ≤ n) (hlast : n ≤ 0x10FFFF + 128) :
    TestSet.isInt32 n = true := by
  unfold TestSet.isInt32 minInt32 maxInt32
  rw [Bool.and_eq_true, decide_eq_true_eq, decide_eq_true_eq]
  omega

/-- The bit of a type in a word that reaches to it is one of the machine word. -/
theorem bit_fits {shift : Int} (hword : wordSize ≤ machineWord) (hle : shift ≤ t)
    (hlt : t - shift < wordSize) : TestSet.isInt32 (t - shift) = true ∧ t - shift < 64 := by
  unfold machineWord at hword
  exact ⟨isInt32_of_near (by omega) (by omega), by omega⟩

theorem computable_of_increase (hsize : 1 ≤ wordSize) (hword : wordSize ≤ machineWord)
    (fromZero : Bool) {shift? : Option Int}
    (hshift : ∀ shift, shift? = some shift → IsSymbol shift ∧ ∀ t ∈ types, shift ≤ t)
    (htypes : ∀ t ∈ types, IsSymbol t) (hincrease : types.Pairwise (· < ·)) :
    computable wordSize fromZero shift? types = true := by
  induction types generalizing shift? with
  | nil => cases shift? <;> rfl
  | cons t types ih =>
      obtain ⟨ht, htypes⟩ := List.forall_mem_cons.mp htypes
      obtain ⟨hlater, hincrease⟩ := List.pairwise_cons.mp hincrease
      have hmachine : wordSize ≤ 64 := hword
      -- whichever word the type goes into begins before the types behind it
      have hgo : ∀ shift, IsSymbol shift → shift ≤ t →
          computable wordSize fromZero (some shift) types = true := fun shift hsymbol hle =>
        ih (fun _ h => Option.some.inj h ▸ ⟨hsymbol, fun u hu =>
          Int.le_trans hle (Int.le_of_lt (hlater u hu))⟩) htypes hincrease
      have hone : isInt32 (wordSize - 1) = true := isInt32_of_near (by omega) (by omega)
      obtain ⟨hnewle, hnewlt, hnew⟩ := shiftFor_spec hsize fromZero t
      have hnewsymbol : IsSymbol (shiftFor wordSize fromZero t) := by
        rcases hnew with h | h <;> rw [h]
        · exact ⟨by decide, by decide⟩
        · exact ht
      obtain ⟨hnewbit, hnewlimit⟩ := bit_fits hword hnewle hnewlt
      cases shift? with
      | none =>
          simp only [computable, Option.all_none, Option.any_none, Bool.false_or, hone,
            Bool.or_true, Bool.and_self, Bool.false_eq_true, ↓reduceIte, hnewbit,
            Int.sub_nonneg, hnewle, decide_true, hnewlimit, hgo _ hnewsymbol hnewle]
      | some shift =>
          obtain ⟨hsymbol, hle⟩ := hshift shift rfl
          have hle := hle t (List.mem_cons_self ..)
          have hsymbol' := hsymbol
          unfold IsSymbol at hsymbol'
          have hend : isInt32 (shift + wordSize) = true := isInt32_of_near (by omega) (by omega)
          have hlast : isInt32 (shift + wordSize - 1) = true :=
            isInt32_of_near (by omega) (by omega)
          by_cases hfits : t ≤ shift + wordSize - 1
          · obtain ⟨hbit, hlimit⟩ := bit_fits hword hle (by omega)
            simp only [computable, Option.all_some, hend, hlast, Bool.and_self, Option.any_some,
              hfits, decide_true, Bool.true_or, ↓reduceIte, Option.getD_some, hbit,
              Int.sub_nonneg, hle, hlimit, hgo _ hsymbol hle]
          · simp only [computable, Option.all_some, hend, hlast, Bool.and_self, Option.any_some,
              hfits, decide_false, Bool.false_or, hone, Bool.or_true, Bool.false_eq_true,
              ↓reduceIte, hnewbit, Int.sub_nonneg, hnewle, decide_true, hnewlimit,
              hgo _ hnewsymbol hnewle]

theorem ofSet?_eq {set : IntervalSet} (hset : set.Canonical) (hsymbols : ∀ n ∈ set, IsSymbol n)
    (hsize : 1 ≤ wordSize) (hword : wordSize ≤ machineWord) :
    ofSet? set wordSize = some (ofSet set wordSize) := by
  have hcomputable : ∀ fromZero, computable wordSize fromZero none set.toList = true :=
    fun fromZero => computable_of_increase hsize hword fromZero nofun
      (fun t ht => hsymbols t ((IntervalSet.mem_toList t).mp ht)) (IntervalSet.pairwise_toList hset)
  unfold ofSet?
  rw [hcomputable, hcomputable]
  rfl

/-! ## Test sets are exact -/

/-- The test set of symbols is computed without leaving the machine limits. It lists the symbols of
the set in increasing order, and a symbol is in the set if and only if its bit is set in a word. -/
theorem ofSet?_exact {set : IntervalSet} (hset : set.Reachable) (hsymbols : ∀ n ∈ set, IsSymbol n)
    (hsize : 1 ≤ wordSize) (hword : wordSize ≤ machineWord) :
    ∃ test, ofSet? set wordSize = some test ∧ test.wordSize = wordSize ∧
      test.tokens = set.toList ∧ test.tokens.Pairwise (· < ·) ∧
      (∀ word ∈ test.bitsets, word.Exact wordSize ∧ word.bits < 2 ^ wordSize.toNat) ∧
      ∀ t, t ∈ set ↔ ∃ word ∈ test.bitsets, 0 ≤ t - word.shift ∧ t - word.shift < wordSize ∧
        word.bits.testBit (t - word.shift).toNat = true := by
  have hcanonical := hset.bounded.toCanonical
  have hexact := exact_ofSet hcanonical hsize
  refine ⟨ofSet set wordSize, ofSet?_eq hcanonical hsymbols hsize hword, rfl,
    tokens_ofSet set wordSize, ?_, fun word hin => ⟨hexact word hin, (hexact word hin).bits_lt⟩,
    fun t => ?_⟩
  · rw [tokens_ofSet]
    exact IntervalSet.pairwise_toList hcanonical
  · rw [← exists_testBit_iff hexact, mem_tokens_ofSet]

/-- The end of the input begins the first word, whose last bit is that of 62; the next type opens
a word, and so does the last code point. -/
theorem ofSet?_exact_edges :
    let set := (((IntervalSet.empty.addRange 62 63).add (-1)).add 2).add 0x10FFFF
    set.Reachable ∧ (∀ n ∈ set, IsSymbol n) ∧
      ∃ test, ofSet? set machineWord = some test ∧ test.tokens = [-1, 2, 62, 63, 0x10FFFF] ∧
        test.bitsets.map (·.shift) = [-1, 63, 0x10FFFF] ∧
        (∀ word ∈ test.bitsets, word.Exact machineWord) ∧
        ∀ t, t ∈ set ↔ ∃ word ∈ test.bitsets, 0 ≤ t - word.shift ∧ t - word.shift < machineWord ∧
          word.bits.testBit (t - word.shift).toNat = true := by
  intro set
  have hset : set.Reachable :=
    (((IntervalSet.Reachable.empty.addRange (by decide) (by decide)).add (by decide)).add
      (by decide)).add (by decide)
  have hlist : set.toList = [-1, 2, 62, 63, 0x10FFFF] := by decide
  have hsymbols : ∀ n ∈ set, IsSymbol n := by
    intro n hn
    rw [← IntervalSet.mem_toList, hlist] at hn
    revert n
    decide
  obtain ⟨test, htest, -, htokens, -, hexact, hmem⟩ :=
    ofSet?_exact hset hsymbols (by decide : 1 ≤ machineWord) (Int.le_refl _)
  refine ⟨hset, hsymbols, test, htest, htokens.trans hlist, ?_, fun word h => (hexact word h).1,
    hmem⟩
  have hshifts : (ofSet? set machineWord).map (fun test => test.bitsets.map (·.shift)) =
      some [-1, 63, 0x10FFFF] := by
    decide
  rw [htest] at hshifts
  exact Option.some.inj hshifts

end TestSet

end GrammarCompiler
