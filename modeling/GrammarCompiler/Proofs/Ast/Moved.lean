import GrammarCompiler.Ast.Read
import GrammarCompiler.Ast.Shift

/-!
# Other places in the token table

A rule all of whose token indexes are moved by one distance (`RuleDef.moved`): the rule that is read
when its tokens stand somewhere else. The parts that a reader puts together may be moved before or
after.
-/

namespace GrammarCompiler

mutual
/-- An element with all of its token indexes moved. -/
def Element.moved (offset : Nat) : Element → Element
  | .block alts options extent =>
    .block (Alt.movedAll offset alts) (options.shift offset) (extent.shift offset)
  | .ruleRef ref => .ruleRef (ref.shift offset)
  | .tokenRef name options extent => .tokenRef name (options.shift offset) (extent.shift offset)
  | .quotation literal => .quotation (literal.shift offset)
  | .range first last extent =>
    .range (first.shift offset) (last.shift offset) (extent.shift offset)
  | .wildcard options extent => .wildcard (options.shift offset) (extent.shift offset)
  | .not operand extent => .not (operand.moved offset) (extent.shift offset)
  | .set elements extent => .set (Element.movedAll offset elements) (extent.shift offset)
  | .suffixed suffix greedy element extent =>
    .suffixed suffix greedy (element.moved offset) (extent.shift offset)
  | .labeled isList label token element extent =>
    .labeled isList label (token + offset) (element.moved offset) (extent.shift offset)
  | .action code => .action (code.shift offset)
  | .predicate code => .predicate (code.shift offset)
  | .command name arg extent => .command name arg (extent.shift offset)
  | .epsilon extent => .epsilon (extent.shift offset)

def Element.movedAll (offset : Nat) : List Element → List Element
  | [] => []
  | e :: es => e.moved offset :: Element.movedAll offset es

def Alt.moved (offset : Nat) : Alt → Alt
  | ⟨elements, options, label, extent, info⟩ =>
    ⟨Element.movedAll offset elements, options.shift offset, label.map (·.shift offset),
      extent.shift offset, info⟩

def Alt.movedAll (offset : Nat) : List Alt → List Alt
  | [] => []
  | a :: as => a.moved offset :: Alt.movedAll offset as
end

def RuleDef.moved (rule : RuleDef) (offset : Nat) : RuleDef :=
  { rule with
    nameToken := rule.nameToken + offset
    args := rule.args.map (·.shift offset)
    returns := rule.returns.map (·.shift offset)
    block := ⟨Alt.movedAll offset rule.block.alts, rule.block.extent.shift offset⟩
    extent := rule.extent.shift offset }

/-! ## Parts -/

theorem Element.extent_moved (offset : Nat) (e : Element) :
    (e.moved offset).extent = e.extent.shift offset := by
  cases e <;> rfl

theorem Element.movedAll_eq_map (offset : Nat) (es : List Element) :
    Element.movedAll offset es = es.map (·.moved offset) := by
  induction es with
  | nil => rfl
  | cons e es ih => rw [Element.movedAll, ih, List.map_cons]

theorem Alt.movedAll_eq_map (offset : Nat) (as : List Alt) :
    Alt.movedAll offset as = as.map (·.moved offset) := by
  induction as with
  | nil => rfl
  | cons a as ih => rw [Alt.movedAll, ih, List.map_cons]

theorem Alt.extent_moved (offset : Nat) (a : Alt) :
    (a.moved offset).extent = a.extent.shift offset := by
  cases a
  rfl

/-- The first token of a block that begins at `colon` if it has no alternatives. -/
theorem Alt.start_movedAll (offset colon : Nat) (alts : List Alt) :
    ((Alt.movedAll offset alts).head?.map (·.extent.start)).getD (colon + offset) =
      (alts.head?.map (·.extent.start)).getD colon + offset := by
  rw [movedAll_eq_map, List.head?_map]
  cases alts.head? with
  | none => rfl
  | some a => simp [extent_moved, Extent.shift]

/-- The last token of a block that ends at `colon` if it has no alternatives. -/
theorem Alt.stop_movedAll (offset colon : Nat) (alts : List Alt) :
    ((Alt.movedAll offset alts).getLast?.map (·.extent.stop)).getD (colon + offset) =
      (alts.getLast?.map (·.extent.stop)).getD colon + offset := by
  rw [movedAll_eq_map, List.getLast?_map]
  cases alts.getLast? with
  | none => rfl
  | some a => simp [extent_moved, Extent.shift]

/-- The places of elements that are the same after moving. -/
theorem Element.extent_eq_of_moved {m n : Nat} {e e' : Element} (h : e.moved m = e'.moved n) :
    e.extent.shift m = e'.extent.shift n := by
  rw [← extent_moved, h, extent_moved]

namespace Cursor

def LiteralToken.moved (token : LiteralToken) (offset : Nat) : LiteralToken :=
  { token with index := token.index + offset }

def ElementLabel.moved (label : ElementLabel) (offset : Nat) : ElementLabel :=
  { label with index := label.index + offset }

theorem isNegatable_moved (offset : Nat) (e : Element) :
    isNegatable (e.moved offset) = isNegatable e := by
  cases e <;> rfl

theorem stopOf_shift (options : Options) (stop offset : Nat) :
    stopOf (options.shift offset) (stop + offset) = stopOf options stop + offset := by
  obtain ⟨entries, extent⟩ := options
  cases extent <;> rfl

theorem moved_onto (label : ElementLabel) (e : Element) (offset : Nat) :
    (label.onto e).moved offset = (label.moved offset).onto (e.moved offset) := by
  rw [ElementLabel.onto, ElementLabel.onto, Element.moved, Element.extent_moved]
  rfl

theorem moved_altOf (next : Nat) (options : Options) (elements : List Element)
    (label : Option (AltLabel × Nat)) (offset : Nat) :
    (altOf next options elements label).moved offset =
      altOf (next + offset) (options.shift offset) (elements.map (·.moved offset))
        (label.map fun l => (l.1.shift offset, l.2 + offset)) := by
  have hlast : (elements.map (·.moved offset)).getLast?.map (·.extent.stop) =
      (elements.getLast?.map (·.extent.stop)).map (· + offset) := by
    rw [List.getLast?_map, Option.map_map, Option.map_map]
    refine congrArg (Option.map · _) (funext fun e => ?_)
    simp [Element.extent_moved, Extent.shift]
  have hhead : (elements.map (·.moved offset)).head?.map (·.extent.start) =
      (elements.head?.map (·.extent.start)).map (· + offset) := by
    rw [List.head?_map, Option.map_map, Option.map_map]
    refine congrArg (Option.map · _) (funext fun e => ?_)
    simp [Element.extent_moved, Extent.shift]
  obtain ⟨entries, extent⟩ := options
  unfold altOf
  rw [hlast, hhead]
  generalize elements.getLast?.map (·.extent.stop) = last
  generalize elements.head?.map (·.extent.start) = head
  cases extent <;> cases head <;> cases last <;> cases label <;> cases elements <;>
    simp [Alt.moved, Element.movedAll_eq_map, Element.moved, Options.shift, Extent.shift,
      Extent.single, AltLabel.shift, Option.or]

end Cursor

end GrammarCompiler
