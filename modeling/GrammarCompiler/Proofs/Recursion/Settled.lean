import GrammarCompiler.Proofs.Ast.Copied
import GrammarCompiler.Proofs.TokenTree.Edges

/-!
# The end of a copy

The last tree of a copy is no literal but one with quotes, and nothing hangs on whether it is joint
with what follows. So a copy can be put in front of anything.
-/

namespace GrammarCompiler

open TokenTree (leaf group settled settled_cons settled_append Firm)

section Ends

variable {ts : List TokenTree}

theorem TokenTree.firm_group (ts : List TokenTree) {delimiter : Delimiter}
    {opened closed : Text.Position} {body : List TokenTree} :
    Firm (ts ++ [group delimiter opened closed body]) :=
  Firm.append (fun text p hlast => by cases hlast) ts (by simp)

theorem TokenTree.firm_punct (ts : List TokenTree) {c : Char} {joint : Bool} {p : Text.Position} :
    Firm (ts ++ [leaf (.punct c joint) p]) :=
  Firm.append (fun text q hlast => by cases hlast) ts (by simp)

theorem TokenTree.firm_word (name : String) (p : Text.Position) : Firm [leaf (.ident name) p] := by
  intro text q hlast
  cases hlast

theorem SuffixSpelled.settled {suffix : Suffix} {greedy : Bool} (h : SuffixSpelled suffix greedy ts) :
    ts ≠ [] ∧ Firm ts ∧ SuffixSpelled suffix greedy (settled ts) := by
  cases h with
  | greedy joint p => exact ⟨by simp, TokenTree.firm_punct [], .greedy suffix false p⟩
  | reluctant joint joint' p q =>
      exact ⟨by simp, TokenTree.firm_punct [_], .reluctant suffix joint false p q⟩

theorem EntriesSpelled.settled : ∀ {entries : List (String × String)} {ts : List TokenTree},
    EntriesSpelled entries ts → ts ≠ [] ∧ Firm ts ∧ EntriesSpelled entries (settled ts)
  | [], _, h => h.elim
  | [(key, value)], _, h => by
      obtain ⟨assignment, joint, p, q, rfl, hassignment⟩ := h
      refine ⟨by simp, TokenTree.firm_punct (leaf (.ident key) p :: assignment),
        assignment, false, p, q, ?_, hassignment⟩
      rw [settled_cons _ (by simp), settled_append _ (by simp)]
      rfl
  | (key, value) :: entry :: entries, _, h => by
      obtain ⟨assignment, joint, p, q, rest, rfl, hassignment, hrest⟩ := h
      obtain ⟨hne, hfirm, hsettled⟩ := EntriesSpelled.settled hrest
      refine ⟨by simp, ?_, assignment, joint, p, q, TokenTree.settled rest, ?_, hassignment, hsettled⟩
      · have hall := hfirm.append
          (leaf (.ident key) p :: (assignment ++ [leaf (.punct ',' joint) q])) hne
        simpa using hall
      · rw [settled_cons _ (by simp), settled_append _ (by simp), settled_cons _ hne]

end Ends

/-- A word or a literal with a mark behind it. -/
theorem EntriesPrinted.settled_append {entries : List (String × String)} {mark : List TokenTree}
    (h : EntriesPrinted entries mark) (ts : List TokenTree) :
    Firm (ts ++ leaf (.punct '<' false) .start :: mark) ∧
      TokenTree.settled (ts ++ leaf (.punct '<' false) .start :: mark) =
        ts ++ leaf (.punct '<' false) .start :: mark := by
  obtain ⟨hne, hsettled⟩ := h.settled
  have hfirm := (h.firm.append [leaf (.punct '<' false) .start] hne).append ts (by simp)
  exact ⟨hfirm, by
    rw [TokenTree.settled_append _ (by simp), settled_cons _ hne, hsettled]⟩

/-- The end of the copy of an element. -/
theorem Element.Copied.settled : ∀ {e : Element} {ts : List TokenTree}, Element.Copied ts e →
    ts ≠ [] ∧ Firm ts ∧ Element.Copied (settled ts) e
  | .not .., _, @Element.Copied.not joint p ts _ hshape hoperand => by
      obtain ⟨hne, hfirm, hsettled⟩ := hoperand.settled
      refine ⟨by simp, hfirm.append [_] hne, ?_⟩
      rw [settled_cons _ hne]
      exact .not hshape hsettled
  | .labeled .., _, @Element.Copied.labeled _ label p sign _ _ hbare hsign helement => by
      obtain ⟨hne, hfirm, hsettled⟩ := helement.settled
      refine ⟨by simp, hfirm.append (_ :: sign) hne, ?_⟩
      rw [settled_cons _ (by simp [hne]), settled_append _ hne]
      exact .labeled hbare hsign hsettled
  | .suffixed .., _, @Element.Copied.suffixed _ _ front _ _ hunsuffixed helement hsuffix haction => by
      obtain ⟨hne, hfirm, hsettled⟩ := hsuffix.settled
      refine ⟨by simp [hne], hfirm.append front hne, ?_⟩
      rw [settled_append _ hne]
      exact .suffixed hunsuffixed helement hsettled haction
  | .block .., _, .block halts => ⟨by simp, TokenTree.firm_group [], .block halts⟩
  | .set .., _, .set helements => ⟨by simp, TokenTree.firm_group [], .set helements⟩
  | .action _, _, .action => ⟨by simp, TokenTree.firm_group [], .action⟩
  | .ruleRef _, _, @Element.Copied.ruleRef name p _ trees _ _ hname htruth hargs hmark => by
      obtain ⟨hfirm, hsettled⟩ := hmark.settled_append (leaf (.ident name) p :: trees)
      refine ⟨by simp, hfirm, ?_⟩
      rw [← List.cons_append, hsettled]
      exact .ruleRef hname htruth hargs hmark
  | .tokenRef .., _, @Element.Copied.tokenRef name p _ _ hname hmark => by
      obtain ⟨hfirm, hsettled⟩ := hmark.settled_append [leaf (.ident name) p]
      refine ⟨by simp, hfirm, ?_⟩
      rw [← List.singleton_append, hsettled]
      exact .tokenRef hname hmark
  | .quotation _, _, @Element.Copied.quotation _ text p _ _ hvalue hne hmark => by
      obtain ⟨hfirm, hsettled⟩ := hmark.settled_append [leaf (.literal text) p]
      refine ⟨by simp, hfirm, ?_⟩
      rw [← List.singleton_append, hsettled]
      exact .quotation hvalue hne hmark
  | .range .., _, .range hfirst (.intro p hvalue hne) => by
      refine ⟨by simp, fun text q hlast => ?_, .range hfirst (.intro p hvalue hne)⟩
      obtain ⟨rfl, -⟩ : _ = text ∧ p = q := by simpa using hlast
      rw [hvalue]
      rfl
  | .wildcard .., _, @Element.Copied.wildcard joint p _ _ hmark => by
      cases hmark with
      | nothing =>
          exact ⟨by simp, TokenTree.firm_punct [], @Element.Copied.wildcard false p _ _ .nothing⟩
      | options hentries =>
          obtain ⟨hfirm, hsettled⟩ := hentries.settled_append [leaf (.punct '.' joint) p]
          refine ⟨by simp, hfirm, ?_⟩
          rw [← List.singleton_append, hsettled]
          exact .wildcard (.options hentries)
  | .predicate _, _, @Element.Copied.predicate opened closed body joint p _ _ hoptions => by
      cases hoptions with
      | none =>
          exact ⟨by simp, TokenTree.firm_punct [_],
            @Element.Copied.predicate opened closed body false p _ _ .none⟩
      | some joint' q hentries =>
          obtain ⟨hne, hfirm, hsettled⟩ := hentries.settled
          refine ⟨by simp, hfirm.append [_, _, _] hne, ?_⟩
          rw [settled_cons _ (by simp), settled_cons _ (by simp), settled_cons _ hne]
          exact .predicate (.some joint' q hsettled)

  | .command .., _, @Element.Copied.command name p arg mark trees hmark harg => by
      have hname : Firm [leaf (.ident name) p] := TokenTree.firm_word name p
      cases harg with
      | none =>
          refine ⟨by simp, hname.append mark (by simp), ?_⟩
          rw [settled_append _ (by simp)]
          exact .command hmark .none
      | some arg opened closed q =>
          have hfirm : Firm (mark ++ [leaf (.ident name) p] ++
              [group .parenthesis opened closed [leaf (.ident arg) q]]) :=
            TokenTree.firm_group _
          refine ⟨by simp, by simpa using hfirm, ?_⟩
          rw [settled_append _ (by simp), settled_cons _ (by simp)]
          exact .command hmark (.some arg opened closed q)

/-- The end of the copies of elements. -/
theorem Element.ListCopied.settled {es : List Element} {ts : List TokenTree}
    (h : Element.ListCopied ts es) (hes : es ≠ []) :
    ts ≠ [] ∧ Firm ts ∧ Element.ListCopied (settled ts) es := by
  induction es generalizing ts with
  | nil => exact absurd rfl hes
  | cons e es ih =>
      cases h with
      | @cons front back _ _ hset hcommand he hrest =>
          by_cases hnil : es = []
          · subst hnil
            cases hrest
            obtain ⟨hne, hfirm, hsettled⟩ := he.settled
            rw [List.append_nil]
            exact ⟨hne, hfirm, by simpa using Element.ListCopied.cons hset hcommand hsettled .nil⟩
          · obtain ⟨hne, hfirm, hsettled⟩ := ih hrest hnil
            refine ⟨by simp [hne], hfirm.append front hne, ?_⟩
            rw [settled_append _ hne]
            exact .cons hset hcommand he hsettled
      | @name name p back _ hrest =>
          by_cases hnil : es = []
          · subst hnil
            cases hrest
            exact ⟨by simp, TokenTree.firm_word name p, Element.ListCopied.name .nil⟩
          · obtain ⟨hne, hfirm, hsettled⟩ := ih hrest hnil
            refine ⟨by simp, hfirm.append [_] hne, ?_⟩
            rw [settled_cons _ hne]
            exact .name hsettled

end GrammarCompiler
