import GrammarCompiler.Proofs.Model.Words
import Mathlib.Order.Bounds.Basic

/-!
# Test sets of the fewest words

Words are windows of as many types as a word has bits, and no choice of windows that covers a set has
fewer of them than its test set (`ofSet?_fewest`).

When every word begins at the type it is opened for, the beginnings of the words are types of the set
that stand at least a word apart (`Opened`). No window covers two of them, so every cover has a window
for each (`length_le_of_apart`). Words that begin at zero are a cover too, hence never fewer, and are
taken only where they are not more.
-/

namespace GrammarCompiler.TestSet

variable {wordSize t : Int} {words : List Bitset} {word : Bitset} {types starts : List Int}
  {set : IntervalSet}

/-- Whether the windows of `wordSize` types that begin at `starts` cover a set. -/
def Covers (wordSize : Int) (starts : List Int) (set : IntervalSet) : Prop :=
  ∀ t ∈ set, ∃ start ∈ starts, start ≤ t ∧ t < start + wordSize

/-- The numbers of windows that a set can be covered with. -/
def coverSizes (wordSize : Int) (set : IntervalSet) : Set Nat :=
  {n | ∃ starts, Covers wordSize starts set ∧ starts.length = n}

/-! ## Every cover has a window for each word -/

/-- Types that stand a window apart need windows of their own. -/
theorem length_le_of_apart (happart : types.Pairwise fun t u => t + wordSize ≤ u)
    (hcovered : ∀ t ∈ types, ∃ start ∈ starts, start ≤ t ∧ t < start + wordSize) :
    types.length ≤ starts.length := by
  choose! window hwindow hle hlt using hcovered
  have hnodup : (types.map window).Nodup := by
    refine List.pairwise_map.mpr (happart.imp_of_mem fun {t u} ht hu hapart heq => ?_)
    have htop := hlt u hu
    have hbottom := hle t ht
    omega
  have hsubset : types.map window ⊆ starts := by
    intro start hstart
    obtain ⟨t, ht, rfl⟩ := List.mem_map.mp hstart
    exact hwindow t ht
  calc types.length = (types.map window).length := (List.length_map _).symm
    _ ≤ starts.length := hnodup.length_le_of_subset hsubset

/-! ## Words that begin at the type they are opened for -/

/-- Each word begins at one of its types, and at least a word behind the beginning of the word before
it. The last word comes first. -/
structure Opened (wordSize : Int) (words : List Bitset) : Prop where
  first : ∀ word ∈ words, word.shift ∈ word.tokens
  apart : words.Pairwise fun later earlier => earlier.shift + wordSize ≤ later.shift

theorem Opened.add (h : Opened wordSize (word :: words)) (t : Int) :
    Opened wordSize (word.add t :: words) := by
  obtain ⟨hfirst, hfirsts⟩ := List.forall_mem_cons.mp h.first
  exact ⟨List.forall_mem_cons.mpr ⟨List.mem_append_left _ hfirst, hfirsts⟩,
    List.pairwise_cons.mpr (List.pairwise_cons.mp h.apart)⟩

/-- A type that is beyond the last word is beyond all words. -/
theorem Opened.next (h : Opened wordSize words) (hsize : 1 ≤ wordSize)
    (hbeyond : ∀ word, words.head? = some word → word.reaches wordSize t = false) :
    Opened wordSize ((Bitset.startingAt t).add t :: words) := by
  refine ⟨List.forall_mem_cons.mpr ⟨List.mem_singleton_self t, h.first⟩,
    List.pairwise_cons.mpr ⟨?_, h.apart⟩⟩
  cases words with
  | nil => exact nofun
  | cons last words =>
      have hlast : last.shift + wordSize ≤ t := by
        have := of_decide_eq_false (hbeyond last rfl)
        omega
      refine List.forall_mem_cons.mpr ⟨hlast, fun word hword => ?_⟩
      have hearlier := (List.pairwise_cons.mp h.apart).1 word hword
      have hshift : ((Bitset.startingAt t).add t).shift = t := rfl
      omega

theorem opened_pack (hsize : 1 ≤ wordSize) (h : Opened wordSize words) :
    Opened wordSize (pack wordSize false words types).reverse := by
  induction types generalizing words with
  | nil =>
      cases words with
      | nil => exact h
      | cons last words =>
          rw [pack, List.reverse_reverse]
          exact h
  | cons t types ih =>
      cases words with
      | nil =>
          rw [pack]
          exact ih (h.next hsize (by simp))
      | cons last words =>
          rw [pack]
          split
          · exact ih (h.add t)
          · next hbeyond =>
            refine ih (h.next hsize fun word hword => ?_)
            obtain rfl := Option.some.inj hword
            exact Bool.eq_false_iff.mpr hbeyond

/-- The words of a set are a cover of it. -/
theorem covers_words (hset : set.Canonical) (hsize : 1 ≤ wordSize) (fromZero : Bool) :
    Covers wordSize ((TestSet.words set wordSize fromZero).map Bitset.shift) set := by
  intro t ht
  rw [← IntervalSet.mem_toList, ← typesIn_words set wordSize fromZero] at ht
  obtain ⟨word, hword, hmem⟩ := List.mem_flatMap.mp ht
  obtain ⟨hle, hlt⟩ := (exact_words hset hsize fromZero word hword).reached t hmem
  exact ⟨word.shift, List.mem_map_of_mem hword, by omega, by omega⟩

/-- No cover is smaller than the words that begin at the types they are opened for. -/
theorem length_words_le (hsize : 1 ≤ wordSize) (hcovers : Covers wordSize starts set) :
    (TestSet.words set wordSize false).length ≤ starts.length := by
  have hopened : Opened wordSize (TestSet.words set wordSize false).reverse :=
    opened_pack hsize ⟨nofun, List.Pairwise.nil⟩
  have hcovered : ∀ shift ∈ (TestSet.words set wordSize false).map Bitset.shift,
      ∃ start ∈ starts, start ≤ shift ∧ shift < start + wordSize := by
    intro shift hshift
    obtain ⟨word, hword, rfl⟩ := List.mem_map.mp hshift
    have hfirst := hopened.first word (List.mem_reverse.mpr hword)
    refine hcovers _ ((IntervalSet.mem_toList _).mp ?_)
    rw [← typesIn_words set wordSize false]
    exact List.mem_flatMap.mpr ⟨word, hword, hfirst⟩
  rw [← List.length_map Bitset.shift]
  exact length_le_of_apart (List.pairwise_map.mpr (List.pairwise_reverse.mp hopened.apart)) hcovered

/-! ## Test sets are least covers -/

theorem isLeast_coverSizes (hset : set.Canonical) (hsize : 1 ≤ wordSize) :
    IsLeast (coverSizes wordSize set) (TestSet.words set wordSize false).length := by
  refine ⟨⟨_, covers_words hset hsize false, List.length_map _⟩, ?_⟩
  rintro _ ⟨starts, hcovers, rfl⟩
  exact length_words_le hsize hcovers

/-- The words of a test set are as few as windows that cover the set can be, and they are those for
which the word of small types begins at zero whenever there are no more of these. -/
theorem ofSet?_fewest (hset : set.Reachable) (hsymbols : ∀ n ∈ set, IsSymbol n)
    (hsize : 1 ≤ wordSize) (hword : wordSize ≤ machineWord) :
    ∃ test, ofSet? set wordSize = some test ∧
      Covers wordSize (test.bitsets.map Bitset.shift) set ∧
      IsLeast (coverSizes wordSize set) test.bitsets.length ∧
      (test.bitsets = TestSet.words set wordSize true ↔
        IsLeast (coverSizes wordSize set) (TestSet.words set wordSize true).length) := by
  have hcanonical := hset.bounded.toCanonical
  have hleast := isLeast_coverSizes hcanonical hsize
  have hzero := covers_words hcanonical hsize true
  refine ⟨ofSet set wordSize, ofSet?_eq hcanonical hsymbols hsize hword, ?_⟩
  unfold ofSet
  dsimp only
  split
  · next hle =>
    -- words that begin at zero are no more, and as a cover they are no fewer
    have hsame : (TestSet.words set wordSize true).length =
        (TestSet.words set wordSize false).length :=
      Nat.le_antisymm hle (hleast.2 ⟨_, hzero, List.length_map _⟩)
    exact ⟨hzero, hsame ▸ hleast, iff_of_true rfl (hsame ▸ hleast)⟩
  · next hmore =>
    refine ⟨covers_words hcanonical hsize false, hleast, iff_of_false (fun heq => ?_) fun h => ?_⟩
    · exact hmore (Nat.le_of_eq (congrArg List.length heq.symm))
    · exact hmore (Nat.le_of_eq (h.unique hleast))

/-- One word from 1 on holds 1 and 64; if it began at zero it would not reach to 64. -/
theorem ofSet?_fewest_two :
    let set := (IntervalSet.empty.add 1).add 64
    set.Reachable ∧ (∀ n ∈ set, IsSymbol n) ∧ (TestSet.words set machineWord true).length = 2 ∧
      ∃ test, ofSet? set machineWord = some test ∧ test.bitsets.map Bitset.shift = [1] ∧
        IsLeast (coverSizes machineWord set) test.bitsets.length ∧
        test.bitsets ≠ TestSet.words set machineWord true := by
  intro set
  have hset : set.Reachable :=
    (IntervalSet.Reachable.empty.add (by decide)).add (by decide)
  have hlist : set.toList = [1, 64] := by decide
  have hsymbols : ∀ n ∈ set, IsSymbol n := by
    intro n hn
    rw [← IntervalSet.mem_toList, hlist] at hn
    revert n
    decide
  obtain ⟨test, htest, -, hleast, hzero⟩ :=
    ofSet?_fewest hset hsymbols (by decide : 1 ≤ machineWord) (Int.le_refl _)
  have htwo : (TestSet.words set machineWord true).length = 2 := by decide
  have hshifts : test.bitsets.map Bitset.shift = [1] := by
    have hcomputed : (ofSet? set machineWord).map (fun test => test.bitsets.map Bitset.shift) =
        some [1] := by
      decide
    rw [htest] at hcomputed
    exact Option.some.inj hcomputed
  have hone : test.bitsets.length = 1 := by
    simpa using congrArg List.length hshifts
  refine ⟨hset, hsymbols, htwo, test, htest, hshifts, hleast, fun heq => ?_⟩
  have hsame := (hzero.mp heq).unique hleast
  omega

end GrammarCompiler.TestSet
