import GrammarCompiler.Proofs.Ast.Reread
import GrammarCompiler.Proofs.Recursion.Scanned

/-!
# Reading the rule without left recursion

The text of a rule without left recursion may fail to be read, but if it is read, the rule has one
alternative, and what stands in it is told by the pieces the text was put together from
(`Layout.alts_of_parse`).
-/

namespace GrammarCompiler

open Text (isName)
open TokenTree (leaf group Lacks lacks_cons)

/-! ## Moved alternatives -/

mutual
theorem Element.unplaced_moved (offset : Nat) : ∀ e : Element, (e.moved offset).unplaced = e.unplaced
  | .block alts options extent =>
      congrArg (Element.block · (.ofEntries options.entries) .nowhere)
        (Alt.unplaced_movedAll offset alts)
  | .not operand extent =>
      congrArg (Element.not · .nowhere) (Element.unplaced_moved offset operand)
  | .set elements extent =>
      congrArg (Element.set · .nowhere) (Element.unplaced_movedAll offset elements)
  | .suffixed suffix greedy element extent =>
      congrArg (Element.suffixed suffix greedy · .nowhere) (Element.unplaced_moved offset element)
  | .labeled isList label token element extent =>
      congrArg (Element.labeled isList label 0 · .nowhere) (Element.unplaced_moved offset element)
  | .ruleRef ⟨_, args, _, _⟩ => by cases args <;> rfl
  | .tokenRef .. | .quotation _ | .range .. | .wildcard .. | .action _ | .predicate _ | .command ..
  | .epsilon _ => rfl

theorem Element.unplaced_movedAll (offset : Nat) : ∀ es : List Element,
    Element.allUnplaced (Element.movedAll offset es) = Element.allUnplaced es
  | [] => rfl
  | e :: es =>
      congrArg₂ List.cons (Element.unplaced_moved offset e) (Element.unplaced_movedAll offset es)

theorem Alt.unplaced_moved (offset : Nat) : ∀ a : Alt, (a.moved offset).unplaced = a.unplaced
  | ⟨elements, options, label, extent, info⟩ => by
      have helements := Element.unplaced_movedAll offset elements
      cases label <;> exact congrArg (Alt.mk · (.ofEntries options.entries) _ .nowhere none) helements

theorem Alt.unplaced_movedAll (offset : Nat) : ∀ as : List Alt,
    Alt.allUnplaced (Alt.movedAll offset as) = Alt.allUnplaced as
  | [] => rfl
  | a :: as => congrArg₂ List.cons (Alt.unplaced_moved offset a) (Alt.unplaced_movedAll offset as)
end

/-! ## Reading a heading -/

/-- Whether trees are a name with what a heading may have behind it, and `rest`. -/
def Headed (ts rest : List TokenTree) : Prop :=
  ∃ name p args arguments returns results,
    ts = leaf (.ident name) p :: (arguments ++ results ++ rest) ∧ ArgumentsPrinted args arguments ∧
      ResultsPrinted returns results

namespace Cursor

variable {c : Cursor} {rest : List TokenTree} {joint : Bool} {p : Text.Position}

theorem clause_of_colon (keyword : String) (h : c.trees = leaf (.punct ':' joint) p :: rest) :
    c.clause keyword = .ok (none, ⟨c, Nat.le_refl _⟩) := by
  unfold clause atWord
  rw [h]
  rfl

theorem ruleSettings_of_colon (h : c.trees = leaf (.punct ':' joint) p :: rest) :
    c.ruleSettings = .ok ((), ⟨c, Nat.le_refl _⟩) := by
  unfold ruleSettings atBraced atWord
  rw [h]
  rfl

theorem yields_bracket {code : String} {t : TokenTree} (h : CodePrinted code t)
    (htrees : c.trees = t :: rest) : Yields c.arguments fun _ d => d.trees = rest := by
  obtain ⟨opened, closed, body, rfl, -⟩ := h
  exact (yields_arguments (.some opened closed body) htrees).mono fun _ _ h => h.2

theorem yields_ruleArguments {args : Option String} {ts : List TokenTree}
    (h : ArgumentsPrinted args ts) (htrees : c.trees = ts ++ rest)
    (hrest : ∀ opened closed body, rest.head? ≠ some (group .bracket opened closed body)) :
    Yields c.ruleArguments fun _ d => d.trees = rest := by
  unfold ruleArguments
  cases h with
  | none =>
      rw [if_neg]
      · exact .ok htrees
      · intro hat
        unfold atGroup at hat
        split at hat
        · next heq =>
            obtain rfl := of_decide_eq_true hat
            rw [List.nil_append] at htrees
            exact hrest _ _ _ (by rw [← htrees, heq]; rfl)
        · cases hat
  | some hcode =>
      obtain ⟨opened, closed, body, rfl, -⟩ := id hcode
      rw [if_pos (by unfold atGroup; rw [htrees]; rfl)]
      refine (yields_bracket hcode htrees).bind ?_
      rintro code d hd hrest
      exact .ok hrest

theorem yields_results {returns : Option String} {ts : List TokenTree}
    (h : ResultsPrinted returns ts)
    (htrees : c.trees = ts ++ leaf (.punct ':' joint) p :: rest) :
    Yields (c.clause "returns") fun _ d => d.trees = leaf (.punct ':' joint) p :: rest := by
  cases h with
  | none =>
      rw [clause_of_colon "returns" htrees]
      exact .ok htrees
  | @some code t hcode =>
      unfold clause
      rw [if_pos (by unfold atWord; rw [htrees]; rfl)]
      have hword : Yields (c.word "returns") fun _ d =>
          d.trees = t :: leaf (.punct ':' joint) p :: rest := by
        intro a d hd hread
        obtain ⟨q, htakes⟩ := takes_word hread
        have heq := htakes.1.symm.trans htrees
        simp only [List.cons_append, List.nil_append, List.cons.injEq] at heq
        exact heq.2
      refine hword.bind ?_
      rintro _ d hd hd'
      refine (yields_bracket hcode hd').bind ?_
      rintro code e he hrest
      exact .ok hrest

/-- A name that is the mark of helper rules is the mark only in front of the word of the results, which
then is the name. -/
theorem yields_fragmentMark (h : Headed c.trees (leaf (.punct ':' joint) p :: rest)) :
    Yields c.fragmentMark fun _ d => Headed d.trees (leaf (.punct ':' joint) p :: rest) := by
  intro isFragment d hd hread
  rcases takes_fragmentMark hread with ⟨-, hsame, -⟩ | ⟨-, q, htakes⟩
  · have hsame : d = c := hsame
    exact hsame ▸ h
  obtain ⟨name, q', args, arguments, returns, results, htrees, hargs, hresults⟩ := h
  have heq := htakes.1.symm.trans htrees
  simp only [List.cons_append, List.nil_append, List.cons.injEq] at heq
  unfold fragmentMark at hread
  split at hread
  · next hmark =>
      have hsecond := (Bool.and_eq_true _ _ ▸ hmark).2
      have hnext : c.second.trees = arguments ++ results ++ leaf (.punct ':' joint) p :: rest := by
        unfold second
        rw [htrees]
        rfl
      unfold atIdent at hsecond
      rw [hnext] at hsecond
      rw [heq.2]
      cases hargs with
      | some hcode =>
          obtain ⟨_, _, _, rfl, -⟩ := hcode
          cases hsecond
      | none =>
          cases hresults with
          | none => cases hsecond
          | some hcode => exact ⟨"returns", .start, _, _, _, _, rfl, .some hcode, .none⟩
  · cases hread
    exact absurd (congrArg List.length (htakes.1.symm.trans rfl)) (by simp)

/-- A rule that is read from the trees of a copy has the alternatives of the copy. -/
theorem yields_rule {body : List TokenTree} {as : List Alt} (hbody : Alt.AllCopied body as)
    {joint' : Bool} {q : Text.Position}
    (h : Headed c.trees (leaf (.punct ':' joint) p :: (body ++ [leaf (.punct ';' joint') q]))) :
    Yields c.rule fun rule _ => Alt.allUnplaced rule.alts = as := by
  unfold Cursor.rule
  refine (yields_fragmentMark h).bind ?_
  rintro isFragment d hd ⟨name, s, args, arguments, returns, results, htrees, hargs, hresults⟩
  refine (yields_ident htrees).bind ?_
  rintro ⟨name', nameToken⟩ e he ⟨-, htrees⟩
  rw [List.append_assoc] at htrees
  refine (yields_ruleArguments hargs htrees fun _ _ _ => ?_).bind ?_
  · cases hresults <;> exact nofun
  rintro args' f hf htrees
  refine (yields_results hresults htrees).bind ?_
  rintro returns' g hg htrees
  dsimp only
  rw [clause_of_colon "locals" htrees]
  dsimp only [bind, Except.bind]
  rw [ruleSettings_of_colon htrees]
  refine (yields_punct htrees).bind ?_
  rintro colon k hk htrees
  refine (yields_alts as hbody htrees (endsBy_cons rfl)).bind ?_
  intro alts l hl hread rule m hm hsemicolon
  obtain ⟨⟨semicolon, n, hn⟩, hpunct, hsemicolon⟩ := ok_of_bind hsemicolon
  obtain ⟨-, joint'', r, htakes⟩ := takes_punct hpunct
  have hlacks : ∀ {char : Char}, char ≠ ';' → Lacks char l.trees := by
    intro char hchar
    rw [htakes.1]
    exact lacks_cons (by simpa using hchar.symm)
  cases hsemicolon
  exact (hread (hlacks (by decide)) (hlacks (by decide))).1

end Cursor

/-! ## Reading the whole text -/

/-- What is read from the text of a rule has one alternative: the primary alternatives in a block, and
the operators in a loop. -/
theorem Layout.alts_of_parse {name : String} {args returns : Option String} {primary : List Piece}
    {operators : List (Nat × Piece)} (hname : isName name = true) {arguments results : List TokenTree}
    (hargs : ArgumentsPrinted args arguments) (hresults : ResultsPrinted returns results)
    (hprimary : ∀ piece ∈ primary, piece.IsCopy) (hoperators : ∀ o ∈ operators, o.2.IsCopy)
    {source : String} {table after : TokenTable} {d : RuleDef}
    (h : RuleDef.parse source (standard.rule (ofPieces name args returns primary operators)) table =
      (.ok d, after)) :
    Alt.allUnplaced d.alts = [Alt.ofElements (mainElements primary operators)] := by
  obtain ⟨trees, e, he, hparse, hrule, -, -, -⟩ := RuleDef.parse_eq_ok.mp h
  obtain ⟨body, trees', hcopied, hparse', halike⟩ :=
    exists_trees hname hargs hresults hprimary hoperators
  obtain rfl : trees' = trees := Except.ok.inj (hparse'.symm.trans hparse)
  -- the text is read just like the trees it was put together from
  have hstart : Cursor.Alike 0 0 (Cursor.atStart trees' table.size)
      (Cursor.atStart (leaf (.ident name) .start :: (arguments ++ results ++
        leaf (.punct ':' false) .start :: (body ++ [leaf (.punct ';' false) .start]))) table.size) :=
    ⟨halike.symm, rfl, rfl⟩
  obtain ⟨again, e', he', hread, hmoved, -⟩ := hstart.rule d e he hrule
  have halts : Alt.movedAll 0 d.alts = Alt.movedAll 0 again.alts :=
    congrArg (fun rule : RuleDef => rule.block.alts) hmoved
  rw [← Alt.unplaced_movedAll 0, halts, Alt.unplaced_movedAll]
  exact Cursor.yields_rule (.last hcopied)
    ⟨name, .start, args, arguments, returns, results, rfl, hargs, hresults⟩ again e' he' hread

end GrammarCompiler
