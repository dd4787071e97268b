import GrammarCompiler.Grammar.Import
import GrammarCompiler.Proofs.Ast.Moved
import GrammarCompiler.Proofs.Ast.Rules

/-!
# Rules of an imported grammar

When a rule is taken in, all of its token indexes move by the size of the importing table, and the
tokens of its own table stand there (`RuleDef.shift_exact`). The extent of a block in parentheses
moves twice (`RuleDef.blocksMoved`), so it is off its tokens, and only rules without such blocks are
moved faithfully.
-/

namespace GrammarCompiler

/-! ## Blocks that move once more -/

mutual
/-- An element whose blocks have moved, and nothing else. -/
def Element.blocksMoved (offset : Nat) : Element → Element
  | .block alts options extent =>
    .block (Alt.allBlocksMoved offset alts) options (extent.shift offset)
  | .not operand extent => .not (operand.blocksMoved offset) extent
  | .set elements extent => .set (Element.allBlocksMoved offset elements) extent
  | .suffixed suffix greedy element extent =>
    .suffixed suffix greedy (element.blocksMoved offset) extent
  | .labeled isList label token element extent =>
    .labeled isList label token (element.blocksMoved offset) extent
  | .ruleRef ref => .ruleRef ref
  | .tokenRef name options extent => .tokenRef name options extent
  | .quotation literal => .quotation literal
  | .range first last extent => .range first last extent
  | .wildcard options extent => .wildcard options extent
  | .action code => .action code
  | .predicate code => .predicate code
  | .command name arg extent => .command name arg extent
  | .epsilon extent => .epsilon extent

def Element.allBlocksMoved (offset : Nat) : List Element → List Element
  | [] => []
  | e :: es => e.blocksMoved offset :: Element.allBlocksMoved offset es

def Alt.blocksMoved (offset : Nat) : Alt → Alt
  | ⟨elements, options, label, extent, info⟩ =>
    ⟨Element.allBlocksMoved offset elements, options, label, extent, info⟩

def Alt.allBlocksMoved (offset : Nat) : List Alt → List Alt
  | [] => []
  | a :: as => a.blocksMoved offset :: Alt.allBlocksMoved offset as
end

def RuleDef.blocksMoved (rule : RuleDef) (offset : Nat) : RuleDef :=
  rule.withAlts (Alt.allBlocksMoved offset rule.alts)

theorem Extent.shift_eq_self {extent : Extent} {offset : Nat} :
    extent.shift offset = extent ↔ offset = 0 := by
  obtain ⟨start, stop⟩ := extent
  simp [Extent.shift]

/-! ## Shifting is moving twice -/

/-- The end of a range has no options, so none are left behind. -/
theorem Quotation.shiftEnd_eq {literal : Quotation} (h : literal.options = .none) (offset : Nat) :
    literal.shiftEnd offset = literal.shift offset := by
  unfold shiftEnd shift
  rw [h]
  rfl

mutual
theorem Element.Spelled.shift_eq (offset : Nat) : ∀ (e : Element) {i : Nat} {ts : List TokenTree},
    e.Spelled i ts → e.shift offset = (e.moved offset).blocksMoved offset
  | .block alts options extent, i, ts, h => by
      rw [Element.Spelled] at h
      obtain ⟨-, -, opened, closed, body, -, halts⟩ := h
      rw [Element.shift, Alt.AllSpelled.shiftAll_eq offset alts halts]
      rfl
  | .range first last extent, i, ts, h => by
      rw [Element.Spelled] at h
      obtain ⟨-, hfirst, -, hlast, -⟩ := h
      rw [Element.shift, Quotation.shiftEnd_eq hfirst, Quotation.shiftEnd_eq hlast]
      rfl
  | .not operand extent, i, ts, h => by
      rw [Element.Spelled] at h
      obtain ⟨-, -, joint, p, rest, -, hoperand⟩ := h
      rw [Element.shift, Element.Spelled.shift_eq offset operand hoperand]
      rfl
  | .set elements extent, i, ts, h => by
      rw [Element.Spelled] at h
      obtain ⟨-, opened, closed, body, -, helements⟩ := h
      rw [Element.shift, Element.SetSpelled.shiftAll_eq offset elements helements]
      rfl
  | .suffixed suffix greedy element extent, i, ts, h => by
      rw [Element.Spelled] at h
      obtain ⟨-, -, front, back, -, helement, -⟩ := h
      rw [Element.shift, Element.Spelled.shift_eq offset element helement]
      rfl
  | .labeled isList label token element extent, i, ts, h => by
      rw [Element.Spelled] at h
      obtain ⟨-, -, -, p, sign, rest, -, -, helement⟩ := h
      rw [Element.shift, Element.Spelled.shift_eq offset element helement]
      rfl
  | .ruleRef _, _, _, _ | .tokenRef _ _ _, _, _, _ | .quotation _, _, _, _
  | .wildcard _ _, _, _, _ | .action _, _, _, _ | .predicate _, _, _, _
  | .command _ _ _, _, _, _ | .epsilon _, _, _, _ => rfl

theorem Element.ListSpelled.shiftAll_eq (offset : Nat) : ∀ (es : List Element) {i : Nat}
    {ts : List TokenTree}, Element.ListSpelled i ts es →
      Element.shiftAll offset es = Element.allBlocksMoved offset (Element.movedAll offset es)
  | [], _, _, _ => rfl
  | e :: es, i, ts, h => by
      rw [Element.ListSpelled] at h
      obtain ⟨front, back, -, he, -, hes⟩ := h
      rw [Element.shiftAll, Element.Spelled.shift_eq offset e he,
        Element.ListSpelled.shiftAll_eq offset es hes]
      rfl

theorem Element.SetSpelled.shiftAll_eq (offset : Nat) : ∀ (es : List Element) {i : Nat}
    {ts : List TokenTree}, Element.SetSpelled i ts es →
      Element.shiftAll offset es = Element.allBlocksMoved offset (Element.movedAll offset es)
  | [], _, _, _ => rfl
  | e :: es, i, ts, h => by
      rw [Element.SetSpelled] at h
      obtain ⟨-, front, back, -, he, hrest⟩ := h
      have hes : Element.shiftAll offset es =
          Element.allBlocksMoved offset (Element.movedAll offset es) := by
        rcases hrest with ⟨rfl, -⟩ | ⟨joint, p, rest, -, hes⟩
        · rfl
        · exact Element.SetSpelled.shiftAll_eq offset es hes
      rw [Element.shiftAll, Element.Spelled.shift_eq offset e he, hes]
      rfl

theorem Alt.Spelled.shift_eq (offset : Nat) : ∀ (a : Alt) {i : Nat} {ts : List TokenTree},
    a.Spelled i ts → a.shift offset = (a.moved offset).blocksMoved offset
  | ⟨elements, options, label, extent, info⟩, i, ts, h => by
      rw [Alt.Spelled] at h
      obtain ⟨-, front, body, back, -, -, -, -, hbody⟩ := h
      rw [Alt.shift]
      rcases hbody with ⟨-, rfl⟩ | ⟨-, -, helements⟩
      · rfl
      · rw [Element.ListSpelled.shiftAll_eq offset elements helements]
        rfl

theorem Alt.AllSpelled.shiftAll_eq (offset : Nat) : ∀ (as : List Alt) {i : Nat}
    {ts : List TokenTree}, Alt.AllSpelled i ts as →
      Alt.shiftAll offset as = Alt.allBlocksMoved offset (Alt.movedAll offset as)
  | [], _, _, _ => rfl
  | a :: as, i, ts, h => by
      rw [Alt.AllSpelled] at h
      obtain ⟨front, back, -, ha, hrest⟩ := h
      have has : Alt.shiftAll offset as =
          Alt.allBlocksMoved offset (Alt.movedAll offset as) := by
        rcases hrest with ⟨rfl, -⟩ | ⟨joint, p, rest, -, -, has⟩
        · rfl
        · exact Alt.AllSpelled.shiftAll_eq offset as has
      rw [Alt.shiftAll, Alt.Spelled.shift_eq offset a ha, has]
      rfl
end

theorem RuleDef.Spelled.shift_eq {rule : RuleDef} {i : Nat} {ts : List TokenTree}
    (h : rule.Spelled i ts) (offset : Nat) :
    rule.shift offset = (rule.moved offset).blocksMoved offset := by
  obtain ⟨mark, heading, body, p, joint, joint', q, r, -, -, -, halts, -⟩ := h.parts
  rw [RuleDef.shift, Alt.AllSpelled.shiftAll_eq offset rule.alts halts]
  rfl

/-! ## Rules without blocks -/

def Element.isBlock : Element → Bool
  | .block .. => true
  | _ => false

mutual
theorem Element.any_isBlock_moved (offset : Nat) : ∀ e : Element,
    (e.moved offset).nodes.any isBlock = e.nodes.any isBlock
  | .block _ _ _ => by simp [Element.moved, Element.nodes, isBlock]
  | .not operand _ | .suffixed _ _ operand _ | .labeled _ _ _ operand _ => by
      simp [Element.moved, Element.nodes, isBlock, Element.any_isBlock_moved offset operand]
  | .set elements _ => by
      simp [Element.moved, Element.nodes, isBlock, Element.any_isBlock_movedAll offset elements]
  | .ruleRef _ | .tokenRef _ _ _ | .quotation _ | .range _ _ _ | .wildcard _ _ | .action _
  | .predicate _ | .command _ _ _ | .epsilon _ => rfl

theorem Element.any_isBlock_movedAll (offset : Nat) : ∀ es : List Element,
    (Element.listNodes (Element.movedAll offset es)).any isBlock =
      (Element.listNodes es).any isBlock
  | [] => rfl
  | e :: es => by
      rw [Element.movedAll, Element.listNodes, Element.listNodes, List.any_append, List.any_append,
        Element.any_isBlock_moved offset e, Element.any_isBlock_movedAll offset es]
end

theorem Alt.any_isBlock_movedAll (offset : Nat) (as : List Alt) :
    (Alt.listNodes (Alt.movedAll offset as)).any Element.isBlock =
      (Alt.listNodes as).any Element.isBlock := by
  induction as with
  | nil => rfl
  | cons a as ih =>
      obtain ⟨elements, options, label, extent, info⟩ := a
      rw [Alt.movedAll, Alt.listNodes, Alt.listNodes, List.any_append, List.any_append, ih,
        Alt.moved, Alt.nodes, Alt.nodes, Element.any_isBlock_movedAll]

mutual
/-- Moving blocks changes every element in which there are any. -/
theorem Element.blocksMoved_eq_self {offset : Nat} (hoffset : offset ≠ 0) : ∀ e : Element,
    e.blocksMoved offset = e ↔ e.nodes.any isBlock = false
  | .block alts _ _ => by
      simp [Element.blocksMoved, Element.nodes, isBlock, Extent.shift_eq_self, hoffset]
  | .not operand _ | .suffixed _ _ operand _ | .labeled _ _ _ operand _ => by
      simpa [Element.blocksMoved, Element.nodes, isBlock] using
        Element.blocksMoved_eq_self hoffset operand
  | .set elements _ => by
      simpa [Element.blocksMoved, Element.nodes, isBlock] using
        Element.allBlocksMoved_eq_self hoffset elements
  | .ruleRef _ | .tokenRef _ _ _ | .quotation _ | .range _ _ _ | .wildcard _ _ | .action _
  | .predicate _ | .command _ _ _ | .epsilon _ => by
      simp [Element.blocksMoved, Element.nodes, isBlock]

theorem Element.allBlocksMoved_eq_self {offset : Nat} (hoffset : offset ≠ 0) :
    ∀ es : List Element,
      Element.allBlocksMoved offset es = es ↔ (Element.listNodes es).any isBlock = false
  | [] => by simp [Element.allBlocksMoved, Element.listNodes]
  | e :: es => by
      rw [Element.allBlocksMoved, Element.listNodes, List.any_append, Bool.or_eq_false_iff,
        List.cons.injEq, Element.blocksMoved_eq_self hoffset e,
        Element.allBlocksMoved_eq_self hoffset es]
end

theorem Alt.allBlocksMoved_eq_self {offset : Nat} (hoffset : offset ≠ 0) (as : List Alt) :
    Alt.allBlocksMoved offset as = as ↔ (Alt.listNodes as).any Element.isBlock = false := by
  induction as with
  | nil => simp [Alt.allBlocksMoved, Alt.listNodes]
  | cons a as ih =>
      obtain ⟨elements, options, label, extent, info⟩ := a
      rw [Alt.allBlocksMoved, Alt.listNodes, List.any_append, Bool.or_eq_false_iff,
        List.cons.injEq, ih, Alt.blocksMoved, Alt.nodes]
      simpa using fun _ => Element.allBlocksMoved_eq_self hoffset elements

theorem RuleDef.blocksMoved_moved_eq {offset : Nat} (hoffset : offset ≠ 0) (rule : RuleDef) :
    (rule.moved offset).blocksMoved offset = rule.moved offset ↔
      ∀ node ∈ rule.nodes, node.isBlock = false := by
  have halts := Alt.allBlocksMoved_eq_self hoffset (Alt.movedAll offset rule.alts)
  rw [Alt.any_isBlock_movedAll, List.any_eq_false] at halts
  simp only [Bool.not_eq_true] at halts
  rw [RuleDef.nodes, ← halts]
  constructor
  · exact fun h => congrArg (·.block.alts) h
  · intro h
    unfold RuleDef.blocksMoved RuleDef.withAlts
    rw [show (rule.moved offset).alts = Alt.movedAll offset rule.alts from rfl, h]
    rfl

/-! ## Tokens of an imported grammar -/

theorem TokenTable.get?_append (table own : TokenTable) (i : Nat) :
    (table.append own).get? (i + table.size) = (own.get? i).map fun t =>
      { t with index := t.index + table.size, source := t.source + table.sources.size } := by
  unfold get? append size
  rw [Array.getElem?_append_right (Nat.le_add_left ..), Nat.add_sub_cancel, Array.getElem?_map]

theorem TokenTable.sourceName_append (table own : TokenTable) (source : Nat) :
    (table.append own).sourceName (source + table.sources.size) = own.sourceName source := by
  unfold sourceName append
  rw [Array.getElem?_append_right (Nat.le_add_left ..), Nat.add_sub_cancel]

/-- Rules that were read from a text. -/
inductive RuleDef.IsRead : RuleDef → Prop
  | among {file source : String} {g : GrammarDef} {rule : RuleDef} :
      GrammarDef.parse file source = .ok g → rule ∈ g.rules → IsRead rule
  | alone {name source : String} {table kept : TokenTable} {rule : RuleDef} :
      RuleDef.parse name source table = (.ok rule, kept) → IsRead rule

theorem RulesSpelled.exists_spelled {rules : List RuleDef} {i : Nat} {ts : List TokenTree}
    (h : RulesSpelled i ts rules) {rule : RuleDef} (hrule : rule ∈ rules) :
    ∃ j used, rule.Spelled j used := by
  induction rules generalizing i ts with
  | nil => cases hrule
  | cons first rules ih =>
      obtain ⟨front, back, -, hfirst, hrules⟩ := h
      rcases List.mem_cons.mp hrule with rfl | hrule
      · exact ⟨_, _, hfirst⟩
      · exact ih hrules hrule

theorem RuleDef.IsRead.exists_spelled {rule : RuleDef} (h : rule.IsRead) :
    ∃ i ts, rule.Spelled i ts := by
  cases h with
  | among hparse hrule =>
      unfold GrammarDef.parse at hparse
      obtain ⟨trees, -, hread⟩ := ok_of_bind hparse
      obtain ⟨-, front, back, -, hspelled⟩ := Cursor.takes_grammar hread
      exact hspelled.exists_spelled hrule
  | alone hparse =>
      obtain ⟨trees, d, hd, -, hread, -⟩ := RuleDef.parse_eq_ok.mp hparse
      obtain ⟨used, -, hspelled⟩ := Cursor.takes_rule hread
      exact ⟨_, _, hspelled⟩

/-- A rule that was read moves as a whole, and the blocks in it once more: it is moved faithfully if
and only if there are none. Behind the tokens of a table, the moved indexes lead to the tokens they
led to before, with the same texts, places and sources. -/
theorem RuleDef.shift_exact {rule : RuleDef} (h : rule.IsRead) (table own : TokenTable) :
    rule.shift table.size = (rule.moved table.size).blocksMoved table.size ∧
    (table.size ≠ 0 → (rule.shift table.size = rule.moved table.size ↔
      ∀ node ∈ rule.nodes, node.isBlock = false)) ∧
    ∀ i, (table.append own).get? (i + table.size) = (own.get? i).map (fun t =>
        { t with index := t.index + table.size, source := t.source + table.sources.size }) ∧
      ∀ t, own.get? i = some t →
        (table.append own).sourceName (t.source + table.sources.size) = own.sourceName t.source := by
  obtain ⟨i, ts, hspelled⟩ := h.exists_spelled
  refine ⟨hspelled.shift_eq _, fun hsize => ?_, fun i => ⟨table.get?_append own i, fun t _ => ?_⟩⟩
  · rw [hspelled.shift_eq]
    exact rule.blocksMoved_moved_eq hsize
  · exact table.sourceName_append own t.source

/-- A rule with a block in parentheses behind ten tokens: the block of the tokens 3 to 7 is said to
be made of the tokens 23 to 27, and the rule is not moved faithfully. -/
theorem RuleDef.shift_exact_block :
    ∃ (table kept : TokenTable) (rule : RuleDef), table.size = 10 ∧
      RuleDef.parse "r" "r : A (B | C) D ;" .empty = (.ok rule, kept) ∧
      ((rule.shift 10).nodes.filter (·.isBlock)).map (·.extent) = [⟨23, 27⟩] ∧
      ((rule.moved 10).nodes.filter (·.isBlock)).map (·.extent) = [⟨13, 17⟩] ∧
      rule.shift table.size = (rule.moved table.size).blocksMoved table.size ∧
      rule.shift table.size ≠ rule.moved table.size := by
  have hsize : (RuleDef.parse "b" "b : C D E F G H I ;" .empty).2.size = 10 := by decide +kernel
  have hgood : (RuleDef.parse "r" "r : A (B | C) D ;" .empty).1.toOption.any (fun rule =>
      ((rule.shift 10).nodes.filter (·.isBlock)).map (·.extent) = [⟨23, 27⟩] &&
        ((rule.moved 10).nodes.filter (·.isBlock)).map (·.extent) = [⟨13, 17⟩] &&
          rule.nodes.any (·.isBlock)) = true := by
    decide +kernel
  obtain ⟨rule, hrule, hall⟩ := (Option.any_eq_true _ _).mp hgood
  generalize hread : RuleDef.parse "r" _ _ = read at hrule
  obtain ⟨_, kept⟩ := read
  obtain rfl : _ = Except.ok rule := ok_of_toOption hrule
  obtain ⟨hboth, hblock⟩ := (Bool.and_eq_true _ _).mp hall
  obtain ⟨hshift, hmoved⟩ := (Bool.and_eq_true _ _).mp hboth
  obtain ⟨hexact, hiff, -⟩ :=
    shift_exact (.alone hread) (RuleDef.parse "b" "b : C D E F G H I ;" .empty).2 kept
  refine ⟨_, kept, rule, hsize, rfl, of_decide_eq_true hshift, of_decide_eq_true hmoved, hexact,
    fun hsame => ?_⟩
  obtain ⟨node, hnode, hblock⟩ := List.any_eq_true.mp hblock
  exact absurd hblock (by simpa using (hiff (by rw [hsize]; decide)).mp hsame node hnode)

end GrammarCompiler
