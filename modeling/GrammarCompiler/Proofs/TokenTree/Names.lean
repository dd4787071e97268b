import GrammarCompiler.Ast.Read
import GrammarCompiler.Proofs.TokenTree.Flat
import GrammarCompiler.Proofs.TokenTree.Word

/-!
# Words are names

Every word of a text that can be read is a name.
-/

namespace GrammarCompiler

open Text

namespace Lexeme

theorem doc?_ne_leaf {cs : List Char} {lexeme : Lexeme} {n : Nat} (h : doc? cs = some (lexeme, n))
    (token : Leaf) : lexeme ≠ .leaf token := by
  have hline : ∀ {inner rest}, (if hasBareReturn (docLine rest) = true then none
      else some (Lexeme.doc inner (String.ofList (docLine rest)), lineLength rest + 3)) =
        some (lexeme, n) → lexeme ≠ .leaf token := by
    intro inner rest h
    split at h
    · cases h
    · rw [← (Prod.mk.inj (Option.some.inj h)).1]
      exact nofun
  have hblock : ∀ {inner}, ((blockLength 0 cs).bind fun n =>
      if hasBareReturn ((cs.take (n - 2)).drop 3) = true then none
      else some (Lexeme.doc inner (String.ofList ((cs.take (n - 2)).drop 3)), n)) =
        some (lexeme, n) → lexeme ≠ .leaf token := by
    intro inner h
    obtain ⟨m, -, h⟩ := Option.bind_eq_some_iff.mp h
    split at h
    · cases h
    · rw [← (Prod.mk.inj (Option.some.inj h)).1]
      exact nofun
  unfold doc? at h
  dsimp only at h
  split at h
  · exact hline h
  · exact hblock h
  · exact hline h
  · exact hblock h
  · cases h

/-- What stands at the head of a text if it is a leaf. -/
theorem leaf?_of_head {c : Char} {cs : List Char} {token : Leaf} {more : Nat}
    (h : head c cs = .lexeme (.leaf token) more) :
    ∃ n, leaf? (c :: cs) = some (token, n) ∧ more = n - 1 := by
  unfold head at h
  split at h
  · cases h
  · split at h
    · cases h
    · split at h
      · next lexeme n hdoc =>
          injection h with h _
          exact absurd h (doc?_ne_leaf hdoc token)
      · split at h
        · next token' n hleaf =>
            injection h with htoken hmore
            injection htoken with htoken
            exact ⟨n, htoken ▸ hleaf, hmore.symm⟩
        · cases h
        · cases h
        · cases h

theorem isName_of_head {c : Char} {cs : List Char} {text : String} {more : Nat}
    (h : head c cs = .lexeme (.leaf (.ident text)) more) : isName text = true := by
  obtain ⟨n, h, -⟩ := leaf?_of_head h
  unfold leaf? at h
  split at h
  · cases h
  · split at h
    · split at h <;> cases h
    · cases h
    · obtain ⟨m, hm, h⟩ := Option.map_eq_some_iff.mp h
      injection h with h _
      injection h with h
      rw [← h]
      exact isName_of_identLength? hm

end Lexeme

theorem Scan.isName_of_mem (p : Position) (cs : List Char) {l : Lexeme × Position} {text : String}
    (hl : l ∈ (scanFrom p cs).lexemes) (htext : l.1 = .leaf (.ident text)) :
    isName text = true := by
  fun_induction scanFrom p cs with
  | case1 => cases hl
  | case2 => cases hl
  | case3 p c cs more hhead ih => exact ih hl
  | case4 p c cs lexeme more hhead ih =>
      rcases List.mem_cons.mp hl with rfl | hl
      · obtain rfl : lexeme = .leaf (.ident text) := htext
        exact Lexeme.isName_of_head hhead
      · exact ih hl

namespace TokenTree

theorem isName_of_spelled {lexeme : Lexeme} {text : String}
    (h : Lexeme.leaf (.ident text) ∈ spelled lexeme) :
    lexeme = .leaf (.ident text) ∨ text = "doc" := by
  cases lexeme with
  | doc inner comment =>
      right
      cases inner <;> simpa [spelled, ofDoc] using h
  | _ =>
      left
      exact (List.mem_singleton.mp h).symm

/-- The words among the trees of a text. -/
theorem isName_of_parse {source : String} {trees : List TokenTree}
    (h : parse source = .ok trees) {text : String}
    (htext : Lexeme.leaf (.ident text) ∈ flats trees) : isName text = true := by
  unfold parse at h
  obtain ⟨-, hflats⟩ := flats_assemble h
  rw [hflats] at htext
  have htext : Lexeme.leaf (.ident text) ∈
      (Scan.scan source).lexemes.flatMap (spelled ·.1) := by simpa [openedBy] using htext
  obtain ⟨l, hl, hmem⟩ := List.mem_flatMap.mp htext
  rcases isName_of_spelled hmem with hword | rfl
  · unfold Scan.scan at hl
    split at hl
    · split at hl <;> exact Scan.isName_of_mem _ _ hl hword
    · exact Scan.isName_of_mem _ _ hl hword
  · decide

end TokenTree

end GrammarCompiler
