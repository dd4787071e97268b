import GrammarCompiler.Proofs.Ast.Spelled
import GrammarCompiler.Proofs.TokenTree.Flat
import GrammarCompiler.TokenTree.Print

/-!
# Trees that are read alike

Two lists of trees are alike (`TokenTree.Alike`) if they have the same leaves and groups and print
the same inside of braces and brackets. They may stand at other places. Punctuation may even be
joint in one and not in the other, unless more punctuation follows: only then does it matter.

Trees are determined by their lexemes up to places, so that a text scanned as the lexemes of some
trees is read as trees alike (`parse_of_lexes`).
-/

namespace GrammarCompiler

open Text (Position)

def Leaf.isPunct : Leaf → Bool
  | .punct _ _ => true
  | _ => false

namespace TokenTree

def startsWithPunct : List TokenTree → Bool
  | leaf token _ :: _ => token.isPunct
  | _ => false

/-- Trees that differ in their places only, and in whether punctuation in front of anything else is
joint. -/
inductive Alike : List TokenTree → List TokenTree → Prop
  | nil : Alike [] []
  | ident {text : String} (p q : Position) {ts us : List TokenTree} : Alike ts us →
      Alike (leaf (.ident text) p :: ts) (leaf (.ident text) q :: us)
  | literal {text : String} (p q : Position) {ts us : List TokenTree} : Alike ts us →
      Alike (leaf (.literal text) p :: ts) (leaf (.literal text) q :: us)
  | punct {c : Char} {joint joint' : Bool} (p q : Position) {ts us : List TokenTree} :
      (startsWithPunct ts = true → joint = joint') → Alike ts us →
        Alike (leaf (.punct c joint) p :: ts) (leaf (.punct c joint') q :: us)
  | group {delimiter : Delimiter} (opened closed opened' closed' : Position)
      {body body' ts us : List TokenTree} : Alike body body' →
      (delimiter ≠ .parenthesis → print body = print body') → Alike ts us →
        Alike (group delimiter opened closed body :: ts) (group delimiter opened' closed' body' :: us)

namespace Alike

variable {ts us vs : List TokenTree}

theorem refl : ∀ ts : List TokenTree, Alike ts ts
  | [] => .nil
  | .leaf (.punct _ _) p :: ts => .punct p p (fun _ => rfl) (refl ts)
  | .leaf (.ident _) p :: ts => .ident p p (refl ts)
  | .leaf (.literal _) p :: ts => .literal p p (refl ts)
  | .group _ opened closed body :: ts =>
      .group opened closed opened closed (refl body) (fun _ => rfl) (refl ts)
termination_by ts => sizes ts
decreasing_by all_goals simp [sizes, size]; try omega

theorem startsWithPunct_eq (h : Alike ts us) : startsWithPunct ts = startsWithPunct us := by
  cases h <;> rfl

theorem trans (h : Alike ts us) (h' : Alike us vs) : Alike ts vs := by
  induction h generalizing vs with
  | nil => exact h'
  | ident p q _ ih =>
      cases h' with
      | ident _ r h' => exact .ident p r (ih h')
  | literal p q _ ih =>
      cases h' with
      | literal _ r h' => exact .literal p r (ih h')
  | punct p q hjoint hts ih =>
      cases h' with
      | punct _ r hjoint' h' =>
          refine .punct p r (fun hpunct => (hjoint hpunct).trans (hjoint' ?_)) (ih h')
          rw [← hts.startsWithPunct_eq, hpunct]
  | group opened closed _ _ _ hprint _ ihbody ih =>
      cases h' with
      | group _ _ opened' closed' hbody' hprint' h' =>
          exact .group opened closed opened' closed' (ihbody hbody')
            (fun hne => (hprint hne).trans (hprint' hne)) (ih h')

theorem symm (h : Alike ts us) : Alike us ts := by
  induction h with
  | nil => exact .nil
  | ident p q _ ih => exact .ident q p ih
  | literal p q _ ih => exact .literal q p ih
  | punct p q hjoint hts ih =>
      exact .punct q p (fun hpunct => (hjoint (hts.startsWithPunct_eq.trans hpunct)).symm) ih
  | group opened closed opened' closed' _ hprint _ ihbody ih =>
      exact .group opened' closed' opened closed ihbody (fun hne => (hprint hne).symm) ih

theorem widths_eq (h : Alike ts us) : widths ts = widths us := by
  induction h with
  | nil => rfl
  | ident _ _ _ ih => simp [ih]
  | literal _ _ _ ih => simp [ih]
  | punct _ _ _ _ ih => simp [ih]
  | @group delimiter _ _ _ _ _ _ _ _ _ _ _ ihbody ih => cases delimiter <;> simp [ihbody, ih]

end Alike

/-! ## Lexemes and places -/

/-- Placed lexemes are gathered into trees that have them as their lexemes. -/
theorem assemble_flats : ∀ (ts : List TokenTree) {placed : List (Lexeme × Position)},
    placed.map (·.1) = flats ts → ∃ us, Alike ts us ∧ (∀ sep, texts sep ts = texts sep us) ∧
      ∀ stuck frames done rest, assemble stuck frames done (placed ++ rest) =
        assemble stuck frames (us.reverse ++ done) rest
  | [], placed, h => by
      rw [flats_nil, List.map_eq_nil_iff] at h
      subst h
      exact ⟨[], .nil, fun _ => rfl, fun _ _ _ _ => rfl⟩
  | .leaf token p :: ts, placed, h => by
      rw [flats_cons, flat_leaf, List.singleton_append] at h
      obtain ⟨⟨_, q⟩, placed', rfl, rfl, hts⟩ := List.map_eq_cons_iff.mp h
      obtain ⟨us, halike, htexts, hassemble⟩ := assemble_flats ts hts
      refine ⟨leaf token q :: us, ?_, fun sep => ?_, fun stuck frames done rest => ?_⟩
      · cases token with
        | ident => exact .ident p q halike
        | literal => exact .literal p q halike
        | punct => exact .punct p q (fun _ => rfl) halike
      · rw [texts, texts, htexts, text, text, show (leaf token p).isJoint = (leaf token q).isJoint by
          cases token <;> rfl]
      · rw [List.cons_append, assemble, hassemble]
        simp
  | .group delimiter opened closed body :: ts, placed, h => by
      rw [flats_cons, flat_group, List.cons_append] at h
      obtain ⟨⟨_, opened'⟩, after, rfl, rfl, hbodies⟩ := List.map_eq_cons_iff.mp h
      rw [List.append_assoc] at hbodies
      obtain ⟨inner, behind, rfl, hinner, hclose⟩ := List.map_eq_append_iff.mp hbodies
      obtain ⟨⟨_, closed'⟩, last, rfl, rfl, hts⟩ := List.map_eq_cons_iff.mp hclose
      obtain ⟨body', hbody, hprint, hassemble⟩ := assemble_flats body hinner
      obtain ⟨us, halike, htexts, hassemble'⟩ := assemble_flats ts hts
      refine ⟨group delimiter opened' closed' body' :: us,
        .group opened closed opened' closed' hbody (fun _ => hprint "") halike, fun sep => ?_,
        fun stuck frames done rest => ?_⟩
      · have hempty : body.isEmpty = body'.isEmpty := by cases hbody <;> rfl
        rw [texts, texts, text, text, htexts, hprint, hempty]
        rfl
      · rw [List.cons_append, assemble, List.append_assoc, hassemble, List.cons_append, assemble,
          if_pos rfl, hassemble']
        simp
termination_by ts => sizes ts
decreasing_by all_goals simp [sizes, size]; try omega

/-- A text that is scanned as the lexemes of some trees is read as trees alike. -/
theorem parse_of_lexes {source : String} {ts : List TokenTree}
    (hmark : source.toList.head? ≠ some Scan.byteOrderMark)
    (h : Lexes source.toList (flats ts) []) : ∃ us, parse source = .ok us ∧ Alike ts us := by
  obtain ⟨q, placed, hplaced, hlexemes, hstuck⟩ := h Position.start
  obtain ⟨us, halike, -, hassemble⟩ := assemble_flats ts hplaced
  refine ⟨us, ?_, halike⟩
  have hend : Scan.scanFrom q [] = ⟨[], none⟩ := by rw [Scan.scanFrom]
  rw [hend] at hlexemes hstuck
  unfold parse
  dsimp only
  rw [Scan.scan_eq hmark, hlexemes, hstuck, hassemble]
  simp [assemble]

end TokenTree

end GrammarCompiler
