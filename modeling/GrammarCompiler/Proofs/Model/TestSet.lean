import GrammarCompiler.Model.TestSet
import GrammarCompiler.Proofs.IntervalSet

/-!
# What test sets hold

However the words of a test set are chosen, they hold the types of the set, in order.
-/

namespace GrammarCompiler

namespace TestSet

def typesIn (words : List Bitset) : List Int :=
  words.flatMap Bitset.tokens

theorem typesIn_add (words : List Bitset) (word : Bitset) (t : Int) :
    typesIn (word.add t :: words).reverse = typesIn (word :: words).reverse ++ [t] := by
  simp [typesIn, Bitset.add]

theorem typesIn_startingAt (words : List Bitset) (shift : Int) :
    typesIn (Bitset.startingAt shift :: words).reverse = typesIn words.reverse := by
  simp [typesIn, Bitset.startingAt]

theorem typesIn_pack (wordSize : Int) (fromZero : Bool) (words : List Bitset) (types : List Int) :
    typesIn (pack wordSize fromZero words types) = typesIn words.reverse ++ types := by
  induction types generalizing words with
  | nil => cases words <;> simp [pack]
  | cons t ts ih =>
      cases words with
      | nil =>
          rw [pack, ih, typesIn_add, typesIn_startingAt, List.append_assoc]
          rfl
      | cons word words =>
          rw [pack]
          split
          · rw [ih, typesIn_add, List.append_assoc]
            rfl
          · rw [ih, typesIn_add, typesIn_startingAt, List.append_assoc]
            rfl

theorem typesIn_words (set : IntervalSet) (wordSize : Int) (fromZero : Bool) :
    typesIn (words set wordSize fromZero) = set.toList := by
  unfold words
  rw [typesIn_pack]
  rfl

theorem tokens_ofSet (set : IntervalSet) (wordSize : Int) :
    (ofSet set wordSize).tokens = set.toList := by
  unfold ofSet tokens
  dsimp only
  split
  · exact typesIn_words ..
  · exact typesIn_words ..

theorem mem_tokens_ofSet (set : IntervalSet) (wordSize n : Int) :
    n ∈ (ofSet set wordSize).tokens ↔ n ∈ set := by
  rw [tokens_ofSet, IntervalSet.mem_toList]

end TestSet

end GrammarCompiler
