/-!
# Decimal numbers in option values

An option value may carry a number: a token index, which is a natural number of 64 bits, or a
precedence, which is a signed number of 32 bits. A leading plus sign is allowed, anything else
around the digits is not, and a number that does not fit counts as absent.
-/

namespace GrammarCompiler.Text

/-- The value of a non-empty run of ASCII digits. -/
def digits? : List Char → Option Nat
  | [] => none
  | cs =>
    if cs.all Char.isDigit then some (cs.foldl (fun n c => n * 10 + (c.toNat - '0'.toNat)) 0)
    else none

/-- The least token index that does not fit 64 bits. -/
def indexLimit : Nat := 18446744073709551616

/-- The bounds of a signed number of 32 bits. -/
def minInt32 : Int := -2147483648

@[inherit_doc minInt32]
def maxInt32 : Int := 2147483647

def index? (s : String) : Option Nat :=
  let value := match s.toList with
    | '+' :: cs => digits? cs
    | cs => digits? cs
  value.filter (· < indexLimit)

def precedence? (s : String) : Option Int :=
  let value : Option Int := match s.toList with
    | '+' :: cs => (digits? cs).map Int.ofNat
    | '-' :: cs => (digits? cs).map fun n => -Int.ofNat n
    | cs => (digits? cs).map Int.ofNat
  value.filter fun n => minInt32 ≤ n && n ≤ maxInt32

end GrammarCompiler.Text
