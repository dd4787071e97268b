import GrammarCompiler.Model.Basic
import GrammarCompiler.Symbol
import GrammarCompiler.Text.Identifier
import GrammarCompiler.Text.Quoted
import GrammarCompiler.TokenTree.Assemble
import GrammarCompiler.TokenTree.Print

/-!
# The code of a parser

Code is a list of words that are written with one space between them. A group in delimiters is
one word. A choice that the next token settles becomes a test of that token; all others ask the
runtime for the number of an alternative.

Names from the grammar go into the code as they are. Where one of them is not an identifier
there is no code, only a `BadName`.
-/

namespace GrammarCompiler

/-- A name that cannot stand in code. -/
structure BadName where
  name : String
deriving Repr, DecidableEq

/-- Words of generated code. -/
abbrev Code := List String

namespace Code

def text (code : Code) : String :=
  " ".intercalate code

/-- Words between delimiters. -/
def group (delimiter : Delimiter) (code : Code) : String :=
  TokenTree.delimited delimiter code.text code.isEmpty

def parens (code : Code) : String := group .parenthesis code

def braces (code : Code) : String := group .brace code

def brackets (code : Code) : String := group .bracket code

/-- Lists of words with a separator between them. -/
def separated (separator : String) (parts : List Code) : Code :=
  (parts.intersperse [separator]).flatten

def name (name : String) : Except BadName String :=
  if Text.isName name then .ok name else .error ⟨name⟩

/-- A number; the sign is a word of its own. -/
def number (n : Int) : Code :=
  if n < 0 then ["-", toString (-n)] else [toString n]

def flag (b : Bool) : String :=
  if b then "true" else "false"

/-- A number that counts something. -/
def count (n : Nat) : String :=
  toString n ++ "usize"

/-! ## Fixed parts -/

/-- The words of a text without groups. -/
def words (text : String) : Code :=
  text.splitOn " "

/-- A parameter list that begins with the receiver. -/
def receiver (more : String) : String :=
  "(& mut self" ++ more ++ ")"

def method (name params result : String) : Code :=
  ["fn", name, receiver params, "->"] ++ words result ++ [";"]

/-- The interface to the tokens and to prediction that generated functions rely on. -/
def runtimeTrait : Code :=
  ["#", "[doc = r\" Token access and prediction the generated functions rely on.\"]",
   "pub", "trait", "Runtime",
   braces (["type", "Error", ";"] ++
     method "la" " , i : usize" "i32" ++
     method "match_token" " , ttype : i32" "Result < () , Self :: Error >" ++
     method "match_set" " , set : & [i32] , invert : bool" "Result < () , Self :: Error >" ++
     method "match_wildcard" "" "Result < () , Self :: Error >" ++
     method "adaptive_predict" " , decision : usize" "usize" ++
     method "no_viable_alt" "" "Self :: Error" ++
     method "failed_predicate" " , predicate : & str" "Self :: Error")]

def runtime (function : String) (args : Code) : Code :=
  ["rt", ".", function, parens args]

/-- The end of a function with an error. -/
def fail (error : Code) : Code :=
  ["return", "Err", parens error]

/-- What happens when no alternative fits. -/
def noAlternative : Code :=
  ["_", "=>"] ++ fail (runtime "no_viable_alt" []) ++ [","]

/-- A test that must hold, with the text that is shown when it does not. -/
def require (test : Code) (text : String) : Code :=
  ["if", "!", parens test,
   braces (fail (runtime "failed_predicate" [Text.literalText text]) ++ [";"])]

/-- Embedded code that cannot be cut into tokens stands in the output as an error. -/
def invalid (what text : String) : Code :=
  let message := "invalid " ++ what ++ " `" ++ text ++ "`: cannot parse string into token stream"
  ["::", "core", "::", "compile_error", "!", braces [Text.literalText message]]

/-- The words of embedded code, if it can be cut into tokens. -/
def embedded? (text : String) : Option Code :=
  match TokenTree.parse text with
  | .ok [] => some []
  | .ok trees => some [TokenTree.print trees]
  | .error _ => none

/-- Embedded code that is run. -/
def action (text : String) : Code :=
  match embedded? text with
  | some code => [braces code]
  | none => invalid "action" text

def predicate (text : String) : Code :=
  match embedded? text with
  | some code => require code text
  | none => invalid "predicate" text

/-- The text that is shown for a precedence that is too low. -/
def precedenceText (precedence : Int) : String :=
  s!"precpred(_ctx, {precedence})"

def precedence (precedence : Int) : Code :=
  require (number precedence ++ [">=", "_p"]) (precedenceText precedence)

/-- A step whose result may have a label. -/
def bind (label : Option String) (step : Code) : Except BadName Code :=
  match label with
  | some label => do return ["let", ← name label, "="] ++ step ++ [";"]
  | none => .ok (step ++ [";"])

/-! ## Choices -/

def arm (pattern body : Code) : Code :=
  pattern ++ ["=>", braces body]

def nextToken : Code :=
  runtime "la" ["1"]

def predicted (decision : Nat) : Code :=
  runtime "adaptive_predict" [count decision]

def matching (subject : Code) (arms : Code) : Code :=
  ["match"] ++ subject ++ [braces arms]

def fits (subject pattern : Code) : Code :=
  ["matches", "!", parens (subject ++ [","] ++ pattern)]

/-- A loop that ends when the value does not fit the pattern. -/
def loopWhile (body subject pattern : Code) : Code :=
  ["loop", braces (body ++ ["if", "!"] ++ fits subject pattern ++ [braces ["break", ";"]])]

def choice (kind : ChoiceKind) (decision : Nat) (patterns : List Code)
    (alts : List (Nat × Code)) : Code :=
  let bodies := alts.map (·.2)
  let body := bodies.flatten
  let enter := patterns.head?.getD ["_"]
  let byToken := (patterns.zip bodies).flatMap fun (pattern, body) => arm pattern body
  let byNumber := alts.flatMap fun (num, body) => arm [count num] body
  match kind with
  | .ll1AltBlock => matching nextToken (byToken ++ noAlternative)
  | .ll1OptionalBlock => matching nextToken (byToken ++ arm ["_"] [])
  | .ll1OptionalBlockSingleAlt => ["if"] ++ fits nextToken enter ++ [braces body]
  | .ll1StarBlockSingleAlt => ["while"] ++ fits nextToken enter ++ [braces body]
  | .ll1PlusBlockSingleAlt => loopWhile body nextToken enter
  | .altBlock => matching (predicted decision) (byNumber ++ noAlternative)
  | .optionalBlock => matching (predicted decision) (byNumber ++ arm ["_"] [])
  | .starBlock =>
    ["loop", braces (matching (predicted decision) (byNumber ++ ["_", "=>", "break", ","]))]
  | .plusBlock =>
    loopWhile body (predicted decision) (separated "|" (alts.map fun alt => [count alt.1]))

end Code

/-! ## Models -/

namespace ParserModel

/-- The word or words for a token type: its name or its number. -/
def token (model : ParserModel) (type : Int) : Except BadName Code :=
  if type = Symbol.eof then .ok ["EOF"]
  else
    match model.tokens.reverse.find? (·.2 == type) with
    | some (name, _) => do return [← Code.name name]
    | none => .ok (Code.number type)

/-- A pattern for the tokens of a test set. No token has the pattern of the empty set. -/
def pattern (model : ParserModel) (set : TestSet) : Except BadName Code := do
  if set.tokens.isEmpty then return ["i32", "::", "MIN"]
  return Code.separated "|" (← set.tokens.mapM model.token)

mutual
def operation (model : ParserModel) : Operation → Except BadName Code
  | .matchToken type label => do
    Code.bind label (Code.runtime "match_token" (← model.token type) ++ ["?"])
  | .matchSet set invert => do
    let tokens ← set.tokens.mapM model.token
    let list := Code.brackets (Code.separated "," tokens)
    return Code.runtime "match_set" ["&", list, ",", Code.flag invert] ++ ["?", ";"]
  | .wildcard label => Code.bind label (Code.runtime "match_wildcard" [] ++ ["?"])
  | .invoke rule precedence label => do
    let function ← Code.name ("parse_" ++ rule)
    let args := ["rt", ","] ++ Code.number (precedence.getD 0)
    Code.bind label [function, Code.parens args, "?"]
  | .action text => .ok (Code.action text)
  | .predicate text => .ok (Code.predicate text)
  | .precedence precedence => .ok (Code.precedence precedence)
  | .choice c => model.choice c

def operations (model : ParserModel) : List Operation → Except BadName Code
  | [] => .ok []
  | op :: ops => do return (← model.operation op) ++ (← model.operations ops)

def choice (model : ParserModel) : Choice → Except BadName Code
  | ⟨kind, decision, alts, look⟩ => do
    let bodies ← model.altCodes alts
    let patterns ← look.mapM model.pattern
    return Code.choice kind decision patterns bodies

def altCode (model : ParserModel) : AltCode → Except BadName (Nat × Code)
  | ⟨num, ops⟩ => do return (num, ← model.operations ops)

def altCodes (model : ParserModel) : List AltCode → Except BadName (List (Nat × Code))
  | [] => .ok []
  | alt :: alts => do return (← model.altCode alt) :: (← model.altCodes alts)
end

def tokenConstant (token : String × Int) : Except BadName Code := do
  return ["pub", "const", ← Code.name token.1, ":", "i32", "="] ++ Code.number token.2 ++ [";"]

def ruleFunction (model : ParserModel) (rule : RuleFunction) : Except BadName Code := do
  let function ← Code.name ("parse_" ++ rule.name)
  let body ← model.operations rule.body
  return ["pub", "fn", function] ++ Code.words "< R : Runtime + ? Sized >" ++
    ["(rt : & mut R , _p : i32)", "->"] ++ Code.words "Result < () , R :: Error >" ++
    [Code.braces (body ++ ["Ok", "(())"])]

/-- A method that does nothing unless it is overridden. -/
def hook (name : String) : Except BadName Code := do
  return ["fn", ← Code.name name, Code.receiver "", Code.braces []]

def hookTrait (name : String) (hooks : List String) : Except BadName Code := do
  let body ← hooks.mapM hook
  return ["pub", "trait", ← Code.name name, Code.braces body.flatten]

/-- The hooks that are called when a rule is entered and left. -/
def listenerTrait (model : ParserModel) : Except BadName Code :=
  hookTrait (model.name ++ "Listener")
    (model.rules.flatMap fun rule => ["enter_" ++ rule.name, "exit_" ++ rule.name])

/-- The hooks that visit what a rule has matched. -/
def visitorTrait (model : ParserModel) : Except BadName Code :=
  hookTrait (model.name ++ "Visitor") (model.rules.map fun rule => "visit_" ++ rule.name)

def code (model : ParserModel) : Except BadName Code := do
  let tokens ← model.tokens.mapM tokenConstant
  let rules ← model.rules.mapM model.ruleFunction
  let listener ← if model.listener then model.listenerTrait else .ok []
  let visitor ← if model.visitor then model.visitorTrait else .ok []
  let body :=
    Code.words "pub const GRAMMAR_NAME : & str =" ++ [Text.literalText model.name, ";"] ++
    Code.words "pub const EOF : i32 = - 1 ;" ++ tokens.flatten ++ Code.runtimeTrait ++
    rules.flatten ++ listener ++ visitor
  match model.package with
  | some package => return ["pub", "mod", ← Code.name package, Code.braces body]
  | none => return body

end ParserModel

end GrammarCompiler
