import GrammarCompiler.IntervalSet

/-!
# Sets of symbols within machine limits

Symbols are numbers of 32 bits, and numbers of symbols have 64. Adding symbols and taking the
common ones only compares them and takes saturating successors. Removing a symbol, the complement
and the size compute new numbers: here each of those operations gives nothing where a number does
not fit.
-/

namespace GrammarCompiler

open Text (minInt32 maxInt32 indexLimit)

/-- A number of 32 bits. -/
def IsInt32 (n : Int) : Prop :=
  minInt32 ≤ n ∧ n ≤ maxInt32

instance (n : Int) : Decidable (IsInt32 n) :=
  inferInstanceAs (Decidable (_ ∧ _))

/-- A number, if it has 32 bits. -/
def int32? (n : Int) : Option Int :=
  if IsInt32 n then some n else none

namespace Interval

/-- What is left of an interval without one of its symbols, if the new bounds fit. -/
def without? (x : Interval) (n : Int) : Option (List Interval) :=
  if x.contains n then do
    let below ← if x.a < n then (int32? (n - 1)).map fun b => [⟨x.a, b⟩] else some []
    let above ← if n < x.b then (int32? (n + 1)).map fun a => [⟨a, x.b⟩] else some []
    return below ++ above
  else some [x]

/-- Number of symbols. Bounds are subtracted as signed numbers of 64 bits, and no number of
symbols is negative. -/
def size? (x : Interval) : Option Nat :=
  let count := x.b - x.a + 1
  if 0 ≤ count ∧ count < 9223372036854775808 then some count.toNat else none

end Interval

namespace IntervalSet

/-- Takes a symbol out, if all new bounds fit. -/
def remove? (set : IntervalSet) (n : Int) : Option IntervalSet :=
  (set.intervals.mapM (Interval.without? · n)).map fun parts => ⟨parts.flatten⟩

/-- Adds to a number of symbols those of an interval, if the sum fits. -/
def sizeStep? (count : Nat) (x : Interval) : Option Nat := do
  let size ← x.size?
  if count + size < indexLimit then some (count + size) else none

/-- Number of symbols, if it fits. -/
def size? (set : IntervalSet) : Option Nat :=
  set.intervals.foldlM sizeStep? 0

/-- One step of a complement, if the end of the gap before the interval fits. -/
def complementStep? (lo hi : Int) (state : IntervalSet × Int) (x : Interval) :
    Option (IntervalSet × Int) :=
  let (set, next) := state
  if x.b < lo || hi < x.a then some (set, next)
  else do
    let set ← if next < x.a then (int32? (x.a - 1)).map fun b => set.addRange next b else some set
    return (set, max next (Interval.succ x.b))

/-- The symbols from `lo` to `hi` that are not in the set, if all new bounds fit. -/
def complement? (set : IntervalSet) (lo hi : Int) : Option IntervalSet := do
  let (out, next) ← set.intervals.foldlM (complementStep? lo hi) (empty, lo)
  return if next ≤ hi then out.addRange next hi else out

end IntervalSet

end GrammarCompiler
