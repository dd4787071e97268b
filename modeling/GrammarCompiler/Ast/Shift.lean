import GrammarCompiler.Ast.Walk
import GrammarCompiler.Text.Decimal

/-!
# Moving a rule to other tokens

When the tokens of an imported grammar are added behind those of the importing one, the
indexes in its rules move by the number of tokens already there. Every index of a rule moves
by that offset, but for the extent of a block in parentheses: it is an element and a block at
once, moves as either, and so ends up twice as far away. `RuleDef.shift?` does not move a rule
so far that one of its indexes no longer fits 64 bits.
-/

namespace GrammarCompiler

def Snippet.shift (code : Snippet) (offset : Nat) : Snippet :=
  { code with options := code.options.shift offset, extent := code.extent.shift offset }

def Quotation.shift (literal : Quotation) (offset : Nat) : Quotation :=
  { literal with
    options := literal.options.shift offset
    extent := literal.extent.shift offset }

def Quotation.shiftEnd (literal : Quotation) (offset : Nat) : Quotation :=
  { literal with extent := literal.extent.shift offset }

def RuleRef.shift (ref : RuleRef) (offset : Nat) : RuleRef :=
  { ref with
    args := ref.args.map (·.shift offset)
    options := ref.options.shift offset
    extent := ref.extent.shift offset }

def AltLabel.shift (label : AltLabel) (offset : Nat) : AltLabel :=
  { label with poundToken := label.poundToken + offset }

mutual
def Element.shift (offset : Nat) : Element → Element
  | .block alts options extent =>
    .block (Alt.shiftAll offset alts) (options.shift offset)
      ((extent.shift offset).shift offset)
  | .ruleRef ref => .ruleRef (ref.shift offset)
  | .tokenRef name options extent =>
    .tokenRef name (options.shift offset) (extent.shift offset)
  | .quotation literal => .quotation (literal.shift offset)
  | .range first last extent =>
    .range (first.shiftEnd offset) (last.shiftEnd offset) (extent.shift offset)
  | .wildcard options extent => .wildcard (options.shift offset) (extent.shift offset)
  | .not operand extent => .not (operand.shift offset) (extent.shift offset)
  | .set elements extent => .set (Element.shiftAll offset elements) (extent.shift offset)
  | .suffixed suffix greedy element extent =>
    .suffixed suffix greedy (element.shift offset) (extent.shift offset)
  | .labeled isList label token element extent =>
    .labeled isList label (token + offset) (element.shift offset) (extent.shift offset)
  | .action code => .action (code.shift offset)
  | .predicate code => .predicate (code.shift offset)
  | .command name arg extent => .command name arg (extent.shift offset)
  | .epsilon extent => .epsilon (extent.shift offset)

def Element.shiftAll (offset : Nat) : List Element → List Element
  | [] => []
  | e :: es => e.shift offset :: Element.shiftAll offset es

def Alt.shift (offset : Nat) : Alt → Alt
  | ⟨elements, options, label, extent, info⟩ =>
    ⟨Element.shiftAll offset elements, options.shift offset, label.map (·.shift offset),
      extent.shift offset, info⟩

def Alt.shiftAll (offset : Nat) : List Alt → List Alt
  | [] => []
  | a :: as => a.shift offset :: Alt.shiftAll offset as
end

def RuleDef.shift (rule : RuleDef) (offset : Nat) : RuleDef :=
  { rule with
    nameToken := rule.nameToken + offset
    args := rule.args.map (·.shift offset)
    returns := rule.returns.map (·.shift offset)
    block :=
      { alts := Alt.shiftAll offset rule.alts, extent := rule.block.extent.shift offset }
    extent := rule.extent.shift offset }

/-- The largest token index in a rule. What a rule is made of lies between its first and its
last token, but blocks that have moved may lie behind it. -/
def RuleDef.lastIndex (rule : RuleDef) : Nat :=
  rule.nodes.foldl (fun last element => max last element.extent.stop) rule.extent.stop

/-- The same rule after its tokens have moved, if all of its indexes still fit 64 bits. -/
def RuleDef.shift? (rule : RuleDef) (offset : Nat) : Option RuleDef :=
  let moved := rule.shift offset
  if moved.lastIndex < Text.indexLimit then some moved else none

end GrammarCompiler
