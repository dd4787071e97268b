import GrammarCompiler.Grammar.Basic
import GrammarCompiler.Recursion.Layout
import GrammarCompiler.Recursion.Shape

/-!
# Taking a left-recursive rule apart

For every alternative this module finds its shape, its associativity and the text that stands
for it in the new rule. The text is replayed from the tokens of the alternative, so that actions
and literals come out as they were written. Behind every reference stands an option with the
index of its token, which leads from the new rule back to where the reference was written.

Precedence falls from the first alternative to the last. The last operand of a left-associative
operator must bind tighter than the operator itself; for a right-associative one the same
precedence will do.
-/

namespace GrammarCompiler

/-- How a chain of equal operators is grouped. -/
inductive Assoc where
  | left
  | right
deriving Repr, DecidableEq

/-! ## Text of alternatives -/

/-- Elements behind which options are written anew. -/
def Element.isReplayed : Element → Bool
  | .ruleRef _ | .tokenRef .. | .quotation _ | .wildcard .. => true
  | _ => false

/-- The options that are written behind an element that began at the token `index`; empty if
there are none. A wildcard is no reference and does not name its token. -/
def Element.optionsText (element : Element) (index : Nat) : String :=
  let origin := match element with
    | .wildcard .. => []
    | _ => [(tokenIndexOption, toString index)]
  let others := element.ownOptions.entries.filter (·.1 != tokenIndexOption)
  let entries := (origin ++ others).map fun (key, value) => key ++ "=" ++ value
  if entries.isEmpty then "" else "<" ++ ",".intercalate entries ++ ">"

def Replay.options (out : Replay) (text : String) : Replay :=
  if text.isEmpty then out else out.raw text

namespace Alt

/-- Replays tokens. Those that `skips` selects are left out; behind the first token of an
element come its arguments and its options. -/
def replay (skips : Nat → Bool) (element? : Nat → Option Element) :
    Replay → List Token → Replay
  | out, [] => out
  | out, t :: ts =>
    if skips t.index then replay skips element? out ts
    else
      match element? t.index with
      | none => replay skips element? (out.token t) ts
      | some element =>
        let options := element.optionsText t.index
        match element, ts with
        | .ruleRef _, u :: us =>
          if u.kind = .argAction then
            replay skips element? (((out.token t).token u).options options) us
          else replay skips element? ((out.token t).options options) (u :: us)
        | _, ts => replay skips element? ((out.token t).options options) ts

def tokensIn (alt : Alt) (table : TokenTable) : List Token :=
  (table.tokens.toList.take (alt.extent.stop + 1)).drop alt.extent.start

/-- The text of an alternative. Options in the source are left out and those of the elements
written in their place. -/
def text (alt : Alt) (table : TokenTable) : String :=
  if alt.isEpsilon then ""
  else
    let skipped := alt.optionExtents
    let elements := alt.nodes.filter Element.isReplayed
    (replay (fun i => skipped.any (·.covers i)) (fun i => elements.find? (·.extent.start == i))
      .empty (alt.tokensIn table)).text

/-! ## Changing alternatives -/

/-- An alternative without the reference to the rule `name` at its front, and the label that
stood on it. -/
def withoutLeadingRef (alt : Alt) (name : String) (altLabel : Option String) :
    Alt × Option RefLabel :=
  match alt.elements with
  | [] => (alt, none)
  | first :: rest =>
    if first.refersTo name then
      let start := (rest.head?.map (·.extent.start)).getD alt.extent.start
      let label := match first with
        | .labeled isList label token _ _ => some ⟨label, token, isList, altLabel⟩
        | _ => none
      ({ alt with elements := rest, extent := { alt.extent with start } }, label)
    else (alt, none)

/-- An alternative whose tokens end before its label. -/
def withoutLabelTokens (alt : Alt) : Alt :=
  match alt.label with
  | some label =>
    if alt.extent.start < label.poundToken then
      { alt with extent := { alt.extent with stop := label.poundToken - 1 } }
    else alt
  | none => alt

/-- An alternative whose last rule reference, if it is to the rule `name`, demands a
precedence. -/
def withPrecedence (alt : Alt) (name : String) (precedence : Nat) : Alt :=
  let count := (alt.nodesOfKind .ruleRef).length
  let change (seen : Nat) (element : Element) : Nat × Options :=
    match element with
    | .ruleRef r =>
      (seen + 1,
        if seen + 1 = count && r.name == name then
          r.options.set precedenceOption (toString precedence)
        else r.options)
    | other => (seen, other.ownOptions)
  (alt.mapOptions change 0).2

end Alt

/-! ## Precedence -/

/-- The precedence of the alternative `alt` of `count`. -/
def precedenceOf (count alt : Nat) : Nat :=
  count - alt + 1

/-- An alternative binds tighter than those behind it. -/
theorem precedenceOf_lt_precedenceOf {count a b : Nat} (hab : a < b) (hb : b ≤ count) :
    precedenceOf count b < precedenceOf count a := by
  unfold precedenceOf
  omega

/-- The precedence that an operator of a precedence demands of its last operand. -/
def Assoc.nextPrecedence (assoc : Assoc) (precedence : Nat) : Nat :=
  match assoc with
  | .left => precedence + 1
  | .right => precedence

/-- The associativity of an alternative, left unless it says otherwise, and what is wrong with
what it says. -/
def Grammar.assocOf (grammar : Grammar) (alt : Alt) : Assoc × List Issue :=
  match alt.options.get? assocOption with
  | none | some "left" => (.left, [])
  | some "right" => (.right, [])
  | some value =>
    let place := (alt.options.extent.map (·.start)).getD alt.extent.start
    (.left, [grammar.issueAt .illegalOptionValue place [assocOption, value]])

/-! ## Rules -/

structure AltAnalysis where
  shape : AltShape
  assoc : Assoc
  info : AltInfo
  refLabel : Option RefLabel
deriving Repr, DecidableEq

/-- Analyzes the alternative `num` of a rule with `count` alternatives, whose shape is
known. -/
def AltAnalysis.ofAlt (table : TokenTable) (name : String) (count num : Nat) (alt : Alt)
    (shape : AltShape) (assoc : Assoc) : AltAnalysis :=
  let label := alt.label.map (·.name)
  let precedence := precedenceOf count num
  let finish (alt : Alt) (nextPrecedence : Nat) (refLabel : Option RefLabel) : AltAnalysis :=
    { shape, assoc, refLabel
      info :=
        { alt := num, text := Text.trim (alt.text table), label, nextPrecedence
          refLabel := refLabel.map (·.label)
          isListLabel := refLabel.any (·.isList) } }
  match shape with
  | .binary | .ternary =>
    let (rest, refLabel) := alt.withoutLeadingRef name label
    let next := assoc.nextPrecedence precedence
    finish (rest.withoutLabelTokens.withPrecedence name next) next refLabel
  | .suffix =>
    let (rest, refLabel) := alt.withoutLeadingRef name label
    finish rest.withoutLabelTokens 0 refLabel
  | .front => finish (alt.withoutLabelTokens.withPrecedence name precedence) precedence none
  | .other => finish alt.withoutLabelTokens 0 none

structure RuleAnalysis where
  /-- One entry for each alternative. -/
  alts : List AltAnalysis
deriving Repr, DecidableEq

namespace RuleAnalysis

def ofShape (analysis : RuleAnalysis) (shape : AltShape) : List AltInfo :=
  (analysis.alts.filter (·.shape = shape)).map (·.info)

def primary (analysis : RuleAnalysis) : List AltInfo :=
  (analysis.alts.filter fun alt => alt.shape = .front || alt.shape = .other).map (·.info)

/-- The operator alternatives: first binary ones, then ternary ones, then suffixes. -/
def operators (analysis : RuleAnalysis) : List AltInfo :=
  analysis.ofShape .binary ++ analysis.ofShape .ternary ++ analysis.ofShape .suffix

def refLabels (analysis : RuleAnalysis) : List RefLabel :=
  analysis.alts.filterMap (·.refLabel)

/-- The parts of the text of the new rule. -/
def operatorRule (analysis : RuleAnalysis) (rule : RuleDef) : OperatorRule where
  name := rule.name
  args := rule.args.map (·.text)
  returns := rule.returns.map (·.text)
  primary := analysis.primary.map (·.text)
  operators := analysis.operators.map fun info =>
    (precedenceOf rule.alts.length info.alt, info.text)

end RuleAnalysis

namespace Grammar

/-- Analyzes alternatives up to the first that does not conform. Issues with those before it
are reported all the same. -/
def analyzeAlts (grammar : Grammar) (rule : RuleDef) :
    List (Alt × Nat) → List Issue × Except Nonconformity (List AltAnalysis)
  | [] => ([], .ok [])
  | (alt, num) :: rest =>
    match alt.shape rule.name num with
    | .error reason => ([], .error reason)
    | .ok shape =>
      let (assoc, found) := if shape = .other then (.left, []) else grammar.assocOf alt
      let analysis :=
        AltAnalysis.ofAlt grammar.tokens rule.name rule.alts.length num alt shape assoc
      let (issues, others) := grammar.analyzeAlts rule rest
      (found ++ issues, others.map (analysis :: ·))

def analyze (grammar : Grammar) (rule : RuleDef) :
    List Issue × Except Nonconformity RuleAnalysis :=
  let (issues, alts) := grammar.analyzeAlts rule (rule.alts.zipIdx 1)
  (issues, alts.map RuleAnalysis.mk)

end Grammar

end GrammarCompiler
