import GrammarCompiler.Text.Identifier

/-!
# Literals

How long the literal at the head of a text is, and which text a character or string literal
stands for. Lengths instead of remainders make the scanner's progress obvious: what follows a
literal is the text without that many characters.

A quoted literal is scanned by a small automaton (`Quote.Mode`), one character at a time.
Every literal may carry a suffix, an identifier glued to its end, which belongs to the text of
the literal and not to its value.
-/

namespace GrammarCompiler.Literal

open Text (identLength isIdentStart isIdentContinue)

def hexDigit? (c : Char) : Option Nat :=
  if '0' ≤ c && c ≤ '9' then some (c.toNat - '0'.toNat)
  else if 'a' ≤ c && c ≤ 'f' then some (c.toNat - 'a'.toNat + 10)
  else if 'A' ≤ c && c ≤ 'F' then some (c.toNat - 'A'.toNat + 10)
  else none

/-- Whether a number is a code point that a character can have. -/
def isScalar (n : Nat) : Bool :=
  n < 0xd800 || (0xdfff < n && n < 0x110000)

def suffixLength (cs : List Char) : Nat :=
  (identLength cs).getD 0

/-! ## Quoted literals -/

/-- What a quoted literal holds: text, bytes, or a text that ends at its first NUL. -/
inductive Content where
  | text
  | bytes
  | zeroEnded
deriving Repr, DecidableEq

namespace Quote

/-- Where the automaton stands inside a quoted literal. -/
inductive Mode where
  /-- Between two characters. -/
  | body
  /-- Behind a carriage return, which only a line feed may follow. -/
  | carriage
  /-- Behind a backslash. -/
  | escape
  /-- Before the first digit of a two-digit escape. -/
  | hex
  /-- Before its second digit; remembers the first. -/
  | hexTail (first : Nat)
  /-- Before the opening brace of a numbered character. -/
  | brace
  /-- Among its digits: how many there were and their value. -/
  | code (digits value : Nat)
  /-- Behind an escaped line end, where blanks are dropped. -/
  | folded
  /-- Behind a carriage return among dropped blanks. -/
  | foldedCarriage
deriving Repr, DecidableEq

/-- Whether a character may stand for itself. -/
def plain (content : Content) (c : Char) : Bool :=
  match content with
  | .text => true
  | .bytes => c.toNat < 0x80
  | .zeroEnded => c != '\x00'

def bodyStep (content : Content) (c : Char) : Option Mode :=
  match c with
  | '\r' => some .carriage
  | '\\' => some .escape
  | c => if plain content c then some .body else none

def escapeStep (content : Content) (c : Char) : Option Mode :=
  match c with
  | 'n' | 'r' | 't' | '\\' | '\'' | '"' => some .body
  | '0' => if content = .zeroEnded then none else some .body
  | 'x' => some .hex
  | 'u' => if content = .bytes then none else some .brace
  | '\n' => some .folded
  | '\r' => some .foldedCarriage
  | _ => none

def codeStep (content : Content) (digits value : Nat) (c : Char) : Option Mode :=
  match c with
  | '_' => if digits = 0 then none else some (.code digits value)
  | '}' =>
    if digits = 0 || !isScalar value || (content = .zeroEnded && value = 0) then none
    else some .body
  | c => do
    let digit ← hexDigit? c
    if digits = 6 then none else some (.code (digits + 1) (value * 16 + digit))

/-- One step of the automaton; `none` refuses the literal. -/
def step (content : Content) : Mode → Char → Option Mode
  | .body, c => bodyStep content c
  | .carriage, c => if c = '\n' then some .body else none
  | .escape, c => escapeStep content c
  | .hex, c => do
    let digit ← hexDigit? c
    if content = .text && 7 < digit then none else some (.hexTail digit)
  | .hexTail first, c => do
    let digit ← hexDigit? c
    if content = .zeroEnded && first = 0 && digit = 0 then none else some .body
  | .brace, c => if c = '{' then some (.code 0 0) else none
  | .code digits value, c => codeStep content digits value c
  | .folded, c =>
    if c = ' ' || c = '\t' || c = '\n' then some .folded
    else if c = '\r' then some .foldedCarriage
    else bodyStep content c
  | .foldedCarriage, c => if c = '\n' then some .folded else none

/-- Whether a double quote ends the literal here. -/
def Mode.mayEnd : Mode → Bool
  | .body | .folded => true
  | _ => false

/-- Number of characters up to the closing double quote, which is counted. -/
def untilQuote (content : Content) : Mode → List Char → Option Nat
  | _, [] => none
  | mode, c :: cs =>
    if c = '"' && mode.mayEnd then some 1
    else do
      let next ← step content mode c
      let rest ← untilQuote content next cs
      some (rest + 1)

/-- Number of characters of one escape behind its backslash. A line end cannot be escaped
where only one character is meant. -/
def untilBody (content : Content) : Mode → List Char → Option Nat
  | _, [] => none
  | mode, c :: cs =>
    match step content mode c with
    | none | some .folded | some .foldedCarriage => none
    | some .body => some 1
    | some next => (untilBody content next cs).map (· + 1)

end Quote

/-- Length of a string in double quotes, from its opening quote on. -/
def cookedLength (content : Content) : List Char → Option Nat
  | '"' :: cs => (Quote.untilQuote content .body cs).map (· + 1)
  | _ => none

/-- Number of characters up to the end of a raw string with `hashes` marks. -/
def untilRawEnd (content : Content) (hashes : Nat) : List Char → Option Nat
  | [] => none
  | '\r' :: '\n' :: cs => (untilRawEnd content hashes cs).map (· + 2)
  | '\r' :: _ => none
  | c :: cs =>
    if c = '"' && (cs.take hashes == List.replicate hashes '#') then some (hashes + 1)
    else if Quote.plain content c then (untilRawEnd content hashes cs).map (· + 1)
    else none

/-- The most marks that may surround a raw string. -/
def maxHashes : Nat := 255

/-- Length of a raw string from its first mark or quote on. -/
def rawLength (content : Content) (cs : List Char) : Option Nat :=
  let hashes := (cs.takeWhile (· == '#')).length
  if maxHashes < hashes then none
  else match cs.drop hashes with
    | '"' :: body => (untilRawEnd content hashes body).map (· + (hashes + 1))
    | _ => none

/-- Length of one character in single quotes, from its opening quote on. -/
def singleLength (content : Content) : List Char → Option Nat
  | '\'' :: '\\' :: cs => do
    let n ← Quote.untilBody content .escape cs
    if (cs.drop n).head? = some '\'' then some (n + 3) else none
  | '\'' :: c :: '\'' :: _ => if Quote.plain content c then some 3 else none
  | _ => none

/-- Length of a quoted literal of any kind, its suffix left out. -/
def quotedLength : List Char → Option Nat
  | 'r' :: cs => (rawLength .text cs).map (· + 1)
  | 'b' :: 'r' :: cs => (rawLength .bytes cs).map (· + 2)
  | 'b' :: '\'' :: cs => (singleLength .bytes ('\'' :: cs)).map (· + 1)
  | 'b' :: cs => (cookedLength .bytes cs).map (· + 1)
  | 'c' :: 'r' :: cs => (rawLength .zeroEnded cs).map (· + 2)
  | 'c' :: cs => (cookedLength .zeroEnded cs).map (· + 1)
  | '\'' :: cs => singleLength .text ('\'' :: cs)
  | cs => cookedLength .text cs

/-! ## Numbers -/

/-- Length of an exponent behind its `e`, if it has a digit. -/
def exponentLength (signed valued : Bool) : List Char → Option Nat
  | [] => if valued then some 0 else none
  | c :: cs =>
    if c = '+' || c = '-' then
      if valued then some 0
      else if signed then none
      else (exponentLength true valued cs).map (· + 1)
    else if c.isDigit then (exponentLength signed true cs).map (· + 1)
    else if c = '_' then (exponentLength signed valued cs).map (· + 1)
    else if valued then some 0 else none

/-- Length of a number with a point or an exponent behind its first digit. A point is part of
the number unless a range or a field follows it; an `e` without a digit is the suffix of a
number with a point. -/
def fractionLength (dotted : Bool) : List Char → Option Nat
  | [] => if dotted then some 0 else none
  | c :: cs =>
    if c.isDigit || c = '_' then (fractionLength dotted cs).map (· + 1)
    else if c = '.' then
      if dotted then some 0
      else if cs.head?.any (fun d => d == '.' || isIdentStart d) then none
      else (fractionLength true cs).map (· + 1)
    else if c = 'e' || c = 'E' then
      match exponentLength false false cs with
      | some n => some (n + 1)
      | none => if dotted then some 0 else none
    else if dotted then some 0 else none

/-- Length of a number with a point or an exponent. -/
def floatLength : List Char → Option Nat
  | c :: cs => if c.isDigit then (fractionLength false cs).map (· + 1) else none
  | [] => none

/-- Length of the digits of an integer in `base`. A digit too large for the base refuses the
number, a letter too large ends it. -/
def digitsLength (base : Nat) (empty : Bool) : List Char → Option Nat
  | [] => if empty then none else some 0
  | c :: cs =>
    if c = '_' then
      if empty && base = 10 then none else (digitsLength base empty cs).map (· + 1)
    else match hexDigit? c with
      | some digit =>
        if digit < base then (digitsLength base false cs).map (· + 1)
        else if digit < 10 || empty then none
        else some 0
      | none => if empty then none else some 0

def integerLength : List Char → Option Nat
  | '0' :: 'x' :: cs => (digitsLength 16 true cs).map (· + 2)
  | '0' :: 'o' :: cs => (digitsLength 8 true cs).map (· + 2)
  | '0' :: 'b' :: cs => (digitsLength 2 true cs).map (· + 2)
  | cs => digitsLength 10 true cs

/-- A number together with its suffix. A character that could only go on an identifier may not
touch the number. -/
def withNumberSuffix (cs : List Char) (n : Nat) : Option Nat :=
  let total := n + suffixLength (cs.drop n)
  if (cs.drop total).head?.any isIdentContinue then none else some total

def numberLength (cs : List Char) : Option Nat :=
  ((floatLength cs).bind (withNumberSuffix cs)).or
    ((integerLength cs).bind (withNumberSuffix cs))

/-! ## The placeholder -/

/-- What code shows in place of a literal that could not be made. It counts as one literal,
although it looks like a comment in parentheses, and must be written without any blank. -/
def placeholder : List Char := "(/*ERROR*/)".toList

/-- Length of the placeholder, which takes no suffix. -/
def placeholderLength (cs : List Char) : Option Nat :=
  if placeholder.isPrefixOf cs then some placeholder.length else none

/-- Length of the literal at the head of a text, if there is one. -/
def length? (cs : List Char) : Option Nat :=
  match quotedLength cs with
  | some n => some (n + suffixLength (cs.drop n))
  | none => (numberLength cs).or (placeholderLength cs)

/-! ## Values

The automaton that scans a quoted text also tells which characters it stands for: `emitted`
says what one step adds. -/

namespace Quote

/-- The character that a backslash and a letter stand for, if they stand for one already. -/
def escapeEmitted (c : Char) : Option Char :=
  match c with
  | 'n' => some '\n'
  | 'r' => some '\r'
  | 't' => some '\t'
  | '0' => some '\x00'
  | '\\' | '\'' | '"' => some c
  | _ => none

def bodyEmitted (c : Char) : Option Char :=
  if c = '\\' || c = '\r' then none else some c

/-- What a step adds to the value. A line end is one line feed however it was written, and
dropped blanks add nothing. -/
def emitted : Mode → Char → Option Char
  | .body, c => bodyEmitted c
  | .carriage, c => some c
  | .escape, c => escapeEmitted c
  | .hex, _ => none
  | .hexTail first, c => some (Char.ofNat (first * 16 + (hexDigit? c).getD 0))
  | .brace, _ => none
  | .code _ value, c => if c = '}' then some (Char.ofNat value) else none
  | .folded, c => if c = ' ' || c = '\t' || c = '\n' then none else bodyEmitted c
  | .foldedCarriage, _ => none

/-- The characters that a quoted text stands for, up to its closing double quote. -/
def decode (content : Content) : Mode → List Char → List Char
  | _, [] => []
  | mode, c :: cs =>
    if c = '"' && mode.mayEnd then []
    else match step content mode c with
      | none => []
      | some next => (emitted mode c).toList ++ decode content next cs

end Quote

/-- The text between the quotes of a raw string, from its first mark or quote on. -/
def rawValue (cs : List Char) : List Char :=
  let hashes := (cs.takeWhile (· == '#')).length
  let body := cs.drop (hashes + 1)
  body.take ((untilRawEnd .text hashes body).getD 0 - (hashes + 1))

def chars? : List Char → Option (List Char)
  | '"' :: cs => some (Quote.decode .text .body cs)
  | 'r' :: cs => some (rawValue cs)
  | '\'' :: '\\' :: cs => some ((Quote.decode .text .escape cs).take 1)
  | '\'' :: c :: _ => some [c]
  | _ => none

/-- The text that a character or string literal stands for. -/
def value? (text : String) : Option String :=
  (chars? text.toList).map String.ofList

def isNumber (text : String) : Bool :=
  text.toList.head?.any Char.isDigit

end GrammarCompiler.Literal
