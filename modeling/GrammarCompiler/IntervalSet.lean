import GrammarCompiler.Text.Decimal

/-!
# Sets of symbols

A symbol is a token type or a code point. Sets of symbols are kept as inclusive intervals in
increasing order, with a gap between any two of them. Symbols are numbers of 32 bits, so the
successor of the largest one is that symbol itself (`succ`).
-/

namespace GrammarCompiler

open Text (maxInt32)

/-- An inclusive range of symbols. -/
structure Interval where
  a : Int
  b : Int
deriving Repr, DecidableEq

/-- Sorted intervals with gaps between them. -/
structure IntervalSet where
  intervals : List Interval := []
deriving Repr, DecidableEq

namespace Interval

/-- The next symbol; the largest one is its own successor. -/
def succ (n : Int) : Int :=
  if n < maxInt32 then n + 1 else maxInt32

/-- Whether two intervals overlap or stand next to each other. -/
def touches (x y : Interval) : Bool :=
  x.a ≤ succ y.b && y.a ≤ succ x.b

/-- The least interval around two. -/
def hull (x y : Interval) : Interval :=
  ⟨min x.a y.a, max x.b y.b⟩

def toList (x : Interval) : List Int :=
  (List.range (x.b - x.a + 1).toNat).map fun (n : Nat) => x.a + n

def contains (x : Interval) (n : Int) : Bool :=
  x.a ≤ n && n ≤ x.b

/-- Adds an interval to sorted ones: those that touch it grow together with it. -/
def insert (new : Interval) : List Interval → List Interval
  | [] => [new]
  | x :: xs =>
    if x.touches new then insert (x.hull new) xs
    else if x.b < new.a then x :: insert new xs
    else new :: x :: xs

/-- What is left of an interval without one of its symbols. -/
def without (x : Interval) (n : Int) : List Interval :=
  if x.contains n then
    (if x.a < n then [⟨x.a, n - 1⟩] else []) ++ (if n < x.b then [⟨n + 1, x.b⟩] else [])
  else [x]

/-- The common parts of sorted intervals. -/
def inter : List Interval → List Interval → List Interval
  | x :: xs, y :: ys =>
    let common := if max x.a y.a ≤ min x.b y.b then [⟨max x.a y.a, min x.b y.b⟩] else []
    common ++ if x.b < y.b then inter xs (y :: ys) else inter (x :: xs) ys
  | [], _ => []
  | _, [] => []
termination_by xs ys => xs.length + ys.length

def text (x : Interval) : String :=
  if x.a = x.b then toString x.a else s!"{x.a}..{x.b}"

end Interval

namespace IntervalSet

def empty : IntervalSet := {}

/-- Adds all symbols from `a` to `b`; nothing if there are none. -/
def addRange (set : IntervalSet) (a b : Int) : IntervalSet :=
  if b < a then set else ⟨Interval.insert ⟨a, b⟩ set.intervals⟩

def add (set : IntervalSet) (n : Int) : IntervalSet :=
  set.addRange n n

def single (n : Int) : IntervalSet :=
  empty.add n

/-- The set of all symbols from `a` to `b`. -/
def range (a b : Int) : IntervalSet :=
  empty.addRange a b

def addAll (set other : IntervalSet) : IntervalSet :=
  other.intervals.foldl (fun set x => set.addRange x.a x.b) set

def ofList (symbols : List Int) : IntervalSet :=
  symbols.foldl add empty

def remove (set : IntervalSet) (n : Int) : IntervalSet :=
  ⟨set.intervals.flatMap (·.without n)⟩

def contains (set : IntervalSet) (n : Int) : Bool :=
  set.intervals.any (·.contains n)

def isEmpty (set : IntervalSet) : Bool :=
  set.intervals.isEmpty

def size (set : IntervalSet) : Nat :=
  set.intervals.foldl (fun count x => count + (x.b - x.a + 1).toNat) 0

def min? (set : IntervalSet) : Option Int :=
  set.intervals.head?.map Interval.a

def max? (set : IntervalSet) : Option Int :=
  set.intervals.getLast?.map Interval.b

/-- The symbols that two sets have in common. -/
def inter (set other : IntervalSet) : IntervalSet :=
  ⟨Interval.inter set.intervals other.intervals⟩

/-- Whether two sets have a symbol in common. -/
def intersects (set other : IntervalSet) : Bool :=
  !(set.inter other).isEmpty

/-- One step of a complement: `next` is the first symbol not yet decided. -/
def complementStep (lo hi : Int) (state : IntervalSet × Int) (x : Interval) :
    IntervalSet × Int :=
  let (set, next) := state
  if x.b < lo || hi < x.a then (set, next)
  else
    (if next < x.a then set.addRange next (x.a - 1) else set, max next (Interval.succ x.b))

/-- The symbols from `lo` to `hi` that are not in the set. -/
def complement (set : IntervalSet) (lo hi : Int) : IntervalSet :=
  let (out, next) := set.intervals.foldl (complementStep lo hi) (empty, lo)
  if next ≤ hi then out.addRange next hi else out

def toList (set : IntervalSet) : List Int :=
  set.intervals.flatMap Interval.toList

def text (set : IntervalSet) : String :=
  match set.intervals with
  | [x] => x.text
  | xs => "\x7b" ++ ", ".intercalate (xs.map Interval.text) ++ "\x7d"

/-- What one symbol of lookahead tells about the alternatives of a decision: for each of them
the symbols it can begin with, or nothing where one symbol does not tell. -/
abbrev Look := List (Option IntervalSet)

end IntervalSet

/-- Whether no symbol is in the lookahead of two alternatives, `seen` being the symbols of
those before. An alternative without lookahead settles it. -/
def disjointFrom (seen : IntervalSet) : IntervalSet.Look → Bool
  | [] => true
  | none :: _ => false
  | some look :: rest => !look.intersects seen && disjointFrom (seen.addAll look) rest

/-- Whether one symbol tells the alternatives of a decision apart. -/
def disjoint (look : IntervalSet.Look) : Bool :=
  disjointFrom .empty look

end GrammarCompiler
