import GrammarCompiler.IntervalSet

/-!
# Test sets

A generated parser tests whether the next token is in a set with a few machine words: each
word covers token types from its shift on, one bit for each. There are two ways to choose the
words. Either a word begins at the first type it is needed for, or the word for small types
begins at zero, which saves a subtraction. The second way is taken unless it needs more words.
-/

namespace GrammarCompiler

open Text (minInt32 maxInt32)

structure Bitset where
  shift : Int
  bits : Nat
  tokens : List Int
deriving Repr, DecidableEq

/-- Words that cover a set of token types. -/
structure TestSet where
  wordSize : Int
  bitsets : List Bitset
deriving Repr, DecidableEq

namespace Bitset

def startingAt (shift : Int) : Bitset := ⟨shift, 0, []⟩

def add (set : Bitset) (type : Int) : Bitset :=
  { set with
    bits := set.bits ||| 1 <<< (type - set.shift).toNat
    tokens := set.tokens ++ [type] }

/-- Whether a word of `wordSize` bits reaches to a type. -/
def reaches (set : Bitset) (wordSize type : Int) : Bool :=
  type ≤ set.shift + wordSize - 1

end Bitset

namespace TestSet

def machineWord : Int := 64

/-- Where a new word for a type begins. -/
def shiftFor (wordSize : Int) (fromZero : Bool) (type : Int) : Int :=
  if fromZero && 0 ≤ type && type < wordSize - 1 then 0 else type

/-- Adds types to words, the last of which comes first. -/
def pack (wordSize : Int) (fromZero : Bool) : List Bitset → List Int → List Bitset
  | words, [] => words.reverse
  | [], t :: ts =>
    pack wordSize fromZero [(Bitset.startingAt (shiftFor wordSize fromZero t)).add t] ts
  | word :: words, t :: ts =>
    if word.reaches wordSize t then pack wordSize fromZero (word.add t :: words) ts
    else
      let next := (Bitset.startingAt (shiftFor wordSize fromZero t)).add t
      pack wordSize fromZero (next :: word :: words) ts

/-- The words for a set, chosen one way or the other. -/
def words (set : IntervalSet) (wordSize : Int) (fromZero : Bool) : List Bitset :=
  pack wordSize fromZero [] set.toList

def ofSet (set : IntervalSet) (wordSize : Int) : TestSet :=
  let zeroBased := words set wordSize true
  let freely := words set wordSize false
  ⟨wordSize, if zeroBased.length ≤ freely.length then zeroBased else freely⟩

def tokens (set : TestSet) : List Int :=
  set.bitsets.flatMap Bitset.tokens

/-! ## Machine limits

Types and shifts are numbers of 32 bits and a word has at most 64. Sets of ordinary token types
stay far inside; `ofSet?` answers for arbitrary ones. -/

def isInt32 (n : Int) : Bool :=
  minInt32 ≤ n && n ≤ maxInt32

/-- Whether all words can be computed: no bound leaves 32 bits while types are added to the
word that begins at `shift`, and no type lies 64 or more behind the beginning of its word. -/
def computable (wordSize : Int) (fromZero : Bool) : Option Int → List Int → Bool
  | _, [] => true
  | shift?, t :: ts =>
    let fits := shift?.any fun shift => t ≤ shift + wordSize - 1
    let shift := if fits then shift?.getD t else shiftFor wordSize fromZero t
    (shift?.all fun shift => isInt32 (shift + wordSize) && isInt32 (shift + wordSize - 1)) &&
    (fits || !fromZero || isInt32 (wordSize - 1)) &&
    (isInt32 (t - shift) && 0 ≤ t - shift && t - shift < 64) &&
    computable wordSize fromZero (some shift) ts

/-- The test set of a set of token types, unless it cannot be computed within machine limits. -/
def ofSet? (set : IntervalSet) (wordSize : Int) : Option TestSet :=
  if computable wordSize true none set.toList && computable wordSize false none set.toList then
    some (ofSet set wordSize)
  else none

end TestSet

end GrammarCompiler
