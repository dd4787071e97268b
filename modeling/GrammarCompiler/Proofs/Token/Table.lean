import GrammarCompiler.Ast.Read
import GrammarCompiler.Proofs.Ast.Spelled

/-!
# What stands in the token table

The tokens that trees add to the table are determined by the trees (`TokenTree.allWritten`), up to
the places they are shown at, and there are as many of them as the trees are wide. Moving a token to
another place changes neither its kind nor its text.
-/

namespace GrammarCompiler

open Text (Position)
open TokenTree (widths)

/-! ## The size of the token table -/

namespace TokenTable

theorem size_push (table : TokenTable) (source : Nat) (kind : TokenKind) (text : String)
    (joint : Bool) (position : Text.Position) :
    (table.push source kind text joint position).size = table.size + 1 :=
  Array.size_push _

mutual
theorem size_pushTree (source : Nat) : ∀ (t : TokenTree) (table : TokenTable),
    (pushTree source t table).size = table.size + t.width
  | .leaf (.ident _) _, table | .leaf (.literal _) _, table | .leaf (.punct _ _) _, table =>
      size_push ..
  | .group .parenthesis opened closed body, table => by
      rw [pushTree, size_push, size_pushTrees, size_push, TokenTree.width_parenthesis]
      omega
  | .group .brace _ _ _, table => by
      rw [pushTree, size_push, TokenTree.width_brace]
  | .group .bracket _ _ _, table => by
      rw [pushTree, size_push, TokenTree.width_bracket]

theorem size_pushTrees (source : Nat) : ∀ (ts : List TokenTree) (table : TokenTable),
    (pushTrees source ts table).size = table.size + widths ts
  | [], table => by rw [pushTrees, TokenTree.widths_nil, Nat.add_zero]
  | t :: ts, table => by
      rw [pushTrees, size_pushTrees source ts, size_pushTree source t, TokenTree.widths_cons,
        Nat.add_assoc]
end

theorem size_addSource (table : TokenTable) (name : String) (trees : List TokenTree) :
    (table.addSource name trees).size = table.size + widths trees :=
  size_pushTrees ..

theorem size_relocate (table : TokenTable) (index origin : Nat) :
    (table.relocate index origin).size = table.size := by
  unfold relocate
  split
  · rfl
  · exact Array.size_modify

end TokenTable

theorem RuleDef.size_relocateCopies (rule : RuleDef) (table : TokenTable) :
    (rule.relocateCopies table).size = table.size := by
  unfold RuleDef.relocateCopies
  generalize rule.copiedTokens = copies
  induction copies generalizing table with
  | nil => rfl
  | cons copy copies ih => exact (ih _).trans (table.size_relocate ..)

/-! ## What is written -/

/-- What a token is, wherever it is shown. -/
structure Written where
  kind : TokenKind
  text : String
  joint : Bool

def Token.written (t : Token) : Written :=
  ⟨t.kind, t.text, t.joint⟩

def TokenTable.written (table : TokenTable) : List Written :=
  table.tokens.toList.map Token.written

namespace TokenTree

mutual
def written : TokenTree → List Written
  | leaf (.ident text) _ => [⟨.ident, text, false⟩]
  | leaf (.literal text) _ => [⟨.literal, text, false⟩]
  | leaf (.punct char joint) _ => [⟨.punct, char.toString, joint⟩]
  | group .parenthesis _ _ body =>
    ⟨.openParen, "(", false⟩ :: (allWritten body ++ [⟨.closeParen, ")", false⟩])
  | group .brace _ _ body => [⟨.action, delimited .brace (print body) body.isEmpty, false⟩]
  | group .bracket _ _ body => [⟨.argAction, delimited .bracket (print body) body.isEmpty, false⟩]

def allWritten : List TokenTree → List Written
  | [] => []
  | t :: ts => written t ++ allWritten ts
end

theorem allWritten_append (ts us : List TokenTree) :
    allWritten (ts ++ us) = allWritten ts ++ allWritten us := by
  induction ts with
  | nil => rw [allWritten, List.nil_append, List.nil_append]
  | cons t ts ih => rw [List.cons_append, allWritten, ih, allWritten, List.append_assoc]

mutual
theorem length_written : ∀ t : TokenTree, t.written.length = t.width
  | leaf (.ident _) _ | leaf (.literal _) _ | leaf (.punct _ _) _ => rfl
  | group .parenthesis _ _ body => by
      rw [written, List.length_cons, List.length_append, length_allWritten, width_parenthesis]
      rfl
  | group .brace _ _ _ | group .bracket _ _ _ => rfl

theorem length_allWritten : ∀ ts : List TokenTree, (allWritten ts).length = widths ts
  | [] => rfl
  | t :: ts => by
      rw [allWritten, List.length_append, length_written, length_allWritten, widths_cons]
end

end TokenTree

namespace TokenTable

theorem length_written (table : TokenTable) : table.written.length = table.size := by
  rw [written, List.length_map, Array.length_toList, size]

theorem written_push (table : TokenTable) (source : Nat) (kind : TokenKind) (text : String)
    (joint : Bool) (position : Position) :
    (table.push source kind text joint position).written = table.written ++ [⟨kind, text, joint⟩] := by
  rw [written, push, Array.toList_push, List.map_append]
  rfl

mutual
theorem written_pushTree (source : Nat) : ∀ (t : TokenTree) (table : TokenTable),
    (pushTree source t table).written = table.written ++ t.written
  | .leaf (.ident _) _, table | .leaf (.literal _) _, table | .leaf (.punct _ _) _, table =>
      written_push ..
  | .group .parenthesis opened closed body, table => by
      rw [pushTree, written_push, written_pushTrees, written_push, TokenTree.written]
      simp only [List.append_assoc, List.cons_append, List.nil_append]
  | .group .brace _ _ _, table | .group .bracket _ _ _, table => by
      rw [pushTree, written_push, TokenTree.written]

theorem written_pushTrees (source : Nat) : ∀ (ts : List TokenTree) (table : TokenTable),
    (pushTrees source ts table).written = table.written ++ TokenTree.allWritten ts
  | [], table => by rw [pushTrees, TokenTree.allWritten, List.append_nil]
  | t :: ts, table => by
      rw [pushTrees, written_pushTrees source ts, written_pushTree source t, TokenTree.allWritten,
        List.append_assoc]
end

theorem written_addSource (table : TokenTable) (name : String) (trees : List TokenTree) :
    (table.addSource name trees).written = table.written ++ TokenTree.allWritten trees :=
  written_pushTrees ..

theorem written_relocate (table : TokenTable) (index origin : Nat) :
    (table.relocate index origin).written = table.written := by
  unfold relocate
  split
  · rfl
  · refine List.ext_getElem? fun i => ?_
    simp only [written, List.getElem?_map, Array.getElem?_toList, Array.getElem?_modify]
    split
    · rw [Option.map_map]
      rfl
    · rfl

end TokenTable

theorem RuleDef.written_relocateCopies (rule : RuleDef) (table : TokenTable) :
    (rule.relocateCopies table).written = table.written := by
  unfold RuleDef.relocateCopies
  generalize rule.copiedTokens = copies
  induction copies generalizing table with
  | nil => rfl
  | cons copy copies ih => exact (ih _).trans (table.written_relocate ..)

end GrammarCompiler
