/-!
# Classes of characters as range tables

A property of characters that a standard lists by code point is kept as a list of
inclusive ranges. Membership is a plain search, because the tables are only asked for
characters outside ASCII, which grammars hold few of.
-/

namespace GrammarCompiler.Text

/-- Inclusive ranges of code points, in increasing order. -/
abbrev Ranges := List (Nat × Nat)

/-- A character belongs to a table when one of its ranges covers it. -/
def Ranges.covers (table : Ranges) (c : Char) : Bool :=
  table.any fun (lo, hi) => lo ≤ c.toNat && c.toNat ≤ hi

end GrammarCompiler.Text
