import GrammarCompiler.TokenTree.Assemble

/-!
# Token trees in a row

Trees written out as lexemes, one after another (`TokenTree.flats`). Gathering lexemes into trees
loses nothing: what is read is written out as what was read, with documentation comments as the
attributes they stand for.
-/

namespace GrammarCompiler

open Text (Position)

namespace TokenTree

mutual
def flat : TokenTree → List Lexeme
  | leaf token _ => [.leaf token]
  | group delimiter _ _ body => .opening delimiter :: (flats body ++ [.closing delimiter])

def flats : List TokenTree → List Lexeme
  | [] => []
  | t :: ts => flat t ++ flats ts
end

@[simp]
theorem flat_leaf (token : Leaf) (p : Position) : flat (leaf token p) = [.leaf token] := by
  rw [flat]

@[simp]
theorem flat_group (delimiter : Delimiter) (opened closed : Position) (body : List TokenTree) :
    flat (group delimiter opened closed body) =
      .opening delimiter :: (flats body ++ [.closing delimiter]) := by
  rw [flat]

@[simp]
theorem flats_nil : flats [] = [] := by
  rw [flats]

@[simp]
theorem flats_cons (t : TokenTree) (ts : List TokenTree) : flats (t :: ts) = flat t ++ flats ts := by
  rw [flats]

@[simp]
theorem flats_append (ts us : List TokenTree) : flats (ts ++ us) = flats ts ++ flats us := by
  induction ts with
  | nil => simp
  | cons t ts ih => simp [ih]

/-- The lexemes that a lexeme stands for: those of an attribute for a documentation comment. -/
def spelled : Lexeme → List Lexeme
  | .doc inner text => flats (ofDoc inner text Position.start)
  | lexeme => [lexeme]

theorem flats_ofDoc (inner : Bool) (text : String) (p : Position) :
    flats (ofDoc inner text p) = spelled (.doc inner text) := by
  cases inner <;> simp [ofDoc, spelled]

/-- What was read before the group that is innermost. -/
def openedBy : List Frame → List Lexeme
  | [] => []
  | frame :: frames => openedBy frames ++ flats frame.before.reverse ++ [.opening frame.delimiter]

/-- Trees are written out as the lexemes they were gathered from. -/
theorem flats_assemble {stuck : Option Position} {lexemes : List (Lexeme × Position)}
    {frames : List Frame} {done trees : List TokenTree}
    (h : assemble stuck frames done lexemes = .ok trees) :
    stuck = none ∧
      flats trees = openedBy frames ++ flats done.reverse ++ lexemes.flatMap (spelled ·.1) := by
  induction lexemes generalizing frames done with
  | nil =>
      unfold assemble at h
      cases stuck with
      | some p => cases h
      | none =>
          cases frames with
          | cons frame frames => cases h
          | nil =>
              obtain rfl := Except.ok.inj h
              exact ⟨rfl, by simp [openedBy]⟩
  | cons lexeme lexemes ih =>
      obtain ⟨lexeme, p⟩ := lexeme
      cases lexeme with
      | leaf token =>
          rw [assemble] at h
          obtain ⟨hstuck, hflats⟩ := ih h
          exact ⟨hstuck, by simp [hflats, spelled]⟩
      | doc inner text =>
          rw [assemble] at h
          obtain ⟨hstuck, hflats⟩ := ih h
          refine ⟨hstuck, ?_⟩
          rw [hflats, List.reverse_append, List.reverse_reverse, flats_append, flats_ofDoc,
            List.flatMap_cons]
          simp only [List.append_assoc]
      | opening delimiter =>
          rw [assemble] at h
          obtain ⟨hstuck, hflats⟩ := ih h
          exact ⟨hstuck, by simp [hflats, spelled, openedBy]⟩
      | closing delimiter =>
          cases frames with
          | nil => cases h
          | cons frame frames =>
              rw [assemble] at h
              split at h
              · next hsame =>
                obtain ⟨hstuck, hflats⟩ := ih h
                exact ⟨hstuck, by simp [hflats, spelled, openedBy, hsame]⟩
              · cases h

end TokenTree

/-! ## Scanning -/

/-- Scanning a text yields some lexemes and goes on with the rest of the text. -/
def Lexes (cs : List Char) (lexemes : List Lexeme) (rest : List Char) : Prop :=
  ∀ p, ∃ (q : Position) (placed : List (Lexeme × Position)), placed.map (·.1) = lexemes ∧
    (Scan.scanFrom p cs).lexemes = placed ++ (Scan.scanFrom q rest).lexemes ∧
    (Scan.scanFrom p cs).stuck = (Scan.scanFrom q rest).stuck

namespace Lexes

theorem refl (cs : List Char) : Lexes cs [] cs := fun p => ⟨p, [], rfl, rfl, rfl⟩

theorem trans {cs mid rest : List Char} {ls ls' : List Lexeme} (h : Lexes cs ls mid)
    (h' : Lexes mid ls' rest) : Lexes cs (ls ++ ls') rest := by
  intro p
  obtain ⟨q, placed, rfl, hlex, hstuck⟩ := h p
  obtain ⟨r, placed', rfl, hlex', hstuck'⟩ := h' q
  refine ⟨r, placed ++ placed', List.map_append, ?_, hstuck.trans hstuck'⟩
  rw [hlex, hlex', List.append_assoc]

theorem gap {c : Char} {cs : List Char} {more : Nat} (h : Lexeme.head c cs = .gap more) :
    Lexes (c :: cs) [] (cs.drop more) := by
  intro p
  refine ⟨(p.step c).after (cs.take more), [], rfl, ?_⟩
  rw [Scan.scanFrom, h]
  exact ⟨rfl, rfl⟩

theorem lexeme {c : Char} {cs : List Char} {lexeme : Lexeme} {more : Nat}
    (h : Lexeme.head c cs = .lexeme lexeme more) : Lexes (c :: cs) [lexeme] (cs.drop more) := by
  intro p
  refine ⟨(p.step c).after (cs.take more), [(lexeme, p)], rfl, ?_⟩
  rw [Scan.scanFrom, h]
  exact ⟨rfl, rfl⟩

/-- A lexeme and what comes behind it. -/
theorem cons {c : Char} {w cs rest : List Char} {lexeme : Lexeme} {ls : List Lexeme}
    (h : Lexeme.head c (w ++ cs) = .lexeme lexeme w.length) (h' : Lexes cs ls rest) :
    Lexes (c :: (w ++ cs)) (lexeme :: ls) rest := by
  have hfirst := Lexes.lexeme h
  rw [List.drop_left] at hfirst
  exact hfirst.trans h'

end Lexes

theorem Scan.scan_eq {source : String} (hmark : source.toList.head? ≠ some Scan.byteOrderMark) :
    Scan.scan source = Scan.scanFrom Position.start source.toList := by
  unfold Scan.scan
  split
  · next c cs hcs =>
      rw [if_neg (fun hc => hmark (by rw [hcs, hc]; rfl)), hcs]
  · next hcs => rw [hcs]

/-- The trees of a text that can be read begin with what its front is scanned as. -/
theorem TokenTree.flats_of_lexes {source : String} {trees : List TokenTree}
    (h : TokenTree.parse source = .ok trees)
    (hmark : source.toList.head? ≠ some Scan.byteOrderMark) {ls : List Lexeme} {rest : List Char}
    (hlexes : Lexes source.toList ls rest) :
    ∃ p, TokenTree.flats trees =
      ls.flatMap TokenTree.spelled ++
        (Scan.scanFrom p rest).lexemes.flatMap (TokenTree.spelled ·.1) := by
  unfold TokenTree.parse at h
  obtain ⟨-, hflats⟩ := TokenTree.flats_assemble h
  obtain ⟨q, placed, rfl, hlexemes, -⟩ := hlexes Position.start
  refine ⟨q, ?_⟩
  rw [hflats, Scan.scan_eq hmark, hlexemes, List.flatMap_append]
  simp [TokenTree.openedBy, List.flatMap_map]

end GrammarCompiler
