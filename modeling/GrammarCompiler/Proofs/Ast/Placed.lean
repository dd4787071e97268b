import GrammarCompiler.Proofs.Ast.Rules
import GrammarCompiler.Proofs.Token.Table

/-!
# Places in the token table

Every part of a grammar lies inside the part it belongs to, and parts in a row stand one behind the
other (`Element.Placed`, `Alt.Placed`, `RuleDef.Placed`). The token that a name or a literal stands
at has its text.
-/

namespace GrammarCompiler

open TokenTree (leaf group widths allWritten)

/-- Whether a part begins before it ends, and lies inside another. -/
def Extent.Within (outer extent : Extent) : Prop :=
  outer.start ≤ extent.start ∧ extent.start ≤ extent.stop ∧ extent.stop ≤ outer.stop

/-- What is left of a part behind another in it. -/
def Extent.behind (outer extent : Extent) : Extent :=
  ⟨extent.stop + 1, outer.stop⟩

/-- Whether options lie inside the part that carries them. -/
def Options.Within (outer : Extent) (options : Options) : Prop :=
  ∀ extent ∈ options.extent, outer.Within extent

/-- Whether a piece of code lies inside the part that carries it, and its options inside of it. -/
def Snippet.Within (outer : Extent) (code : Snippet) : Prop :=
  outer.Within code.extent ∧ code.options.Within code.extent

/-- Whether a literal lies inside the part that carries it, its first token is as it is written and
its options lie inside of it. -/
def Quotation.Within (textAt : Nat → Option String) (outer : Extent) (literal : Quotation) : Prop :=
  outer.Within literal.extent ∧ textAt literal.extent.start = some literal.text ∧
    literal.options.Within literal.extent

mutual
/-- Whether all parts of an element lie inside it, those in a row one behind the other, and names and
literals stand at tokens with their texts. -/
def Element.Placed (textAt : Nat → Option String) : Element → Prop
  | .block alts options extent => options.Within extent ∧ Alt.AllPlaced textAt extent alts
  | .ruleRef ref => textAt ref.extent.start = some ref.name ∧
      (∀ code ∈ ref.args, code.Within ref.extent) ∧ ref.options.Within ref.extent
  | .tokenRef name options extent => textAt extent.start = some name ∧ options.Within extent
  | .quotation literal => literal.Within textAt literal.extent
  | .range first last extent =>
      first.Within textAt extent ∧ last.Within textAt (extent.behind first.extent)
  | .wildcard options extent => options.Within extent
  | .not operand extent => extent.Within operand.extent ∧ operand.Placed textAt
  | .set elements extent => Element.AllPlaced textAt extent elements
  | .suffixed _ _ element extent => extent.Within element.extent ∧ element.Placed textAt
  | .labeled _ label token element extent => textAt token = some label ∧
      extent.Within (.single token) ∧ extent.Within element.extent ∧ element.Placed textAt
  | .action code => code.options.Within code.extent
  | .predicate code => code.options.Within code.extent
  | .command _ _ _ => True
  | .epsilon _ => True

def Element.AllPlaced (textAt : Nat → Option String) (outer : Extent) : List Element → Prop
  | [] => True
  | e :: es => outer.Within e.extent ∧ e.Placed textAt ∧
      Element.AllPlaced textAt (outer.behind e.extent) es

/-- Whether all parts of an alternative lie inside it, its elements one behind the other, and its
label stands behind a `#`. -/
def Alt.Placed (textAt : Nat → Option String) : Alt → Prop
  | ⟨elements, options, label, extent, _⟩ => options.Within extent ∧
      Element.AllPlaced textAt extent elements ∧
      ∀ l ∈ label, textAt l.poundToken = some "#" ∧ extent.Within (.single l.poundToken)

def Alt.AllPlaced (textAt : Nat → Option String) (outer : Extent) : List Alt → Prop
  | [] => True
  | a :: as => outer.Within a.extent ∧ a.Placed textAt ∧
      Alt.AllPlaced textAt (outer.behind a.extent) as
end

/-- Whether all parts of a rule lie inside it and its name stands at a token with its text. -/
structure RuleDef.Placed (textAt : Nat → Option String) (rule : RuleDef) : Prop where
  name : textAt rule.nameToken = some rule.name
  name_within : rule.extent.Within (.single rule.nameToken)
  args : ∀ code ∈ rule.args, code.Within rule.extent
  returns : ∀ code ∈ rule.returns, code.Within rule.extent
  block : rule.extent.Within rule.block.extent
  alts : Alt.AllPlaced textAt rule.block.extent rule.block.alts

/-- Whether rules stand one behind the other inside some part. -/
def RuleDef.AllPlaced (textAt : Nat → Option String) (outer : Extent) : List RuleDef → Prop
  | [] => True
  | rule :: rules => outer.Within rule.extent ∧ rule.Placed textAt ∧
      RuleDef.AllPlaced textAt (outer.behind rule.extent) rules

/-! ## Trees in the table -/

namespace TokenTree

def textAt (tokens : List Written) (i : Nat) : Option String :=
  (tokens[i]?).map Written.text

/-- Whether the tokens of trees stand in a table, from a given place on. -/
def StandAt (tokens : List Written) (i : Nat) (ts : List TokenTree) : Prop :=
  ∃ before after, tokens = before ++ allWritten ts ++ after ∧ before.length = i

namespace StandAt

variable {tokens : List Written} {i : Nat} {ts us : List TokenTree}

theorem front (h : StandAt tokens i (ts ++ us)) : StandAt tokens i ts := by
  obtain ⟨before, after, rfl, hlength⟩ := h
  exact ⟨before, allWritten us ++ after, by simp [allWritten_append], hlength⟩

theorem back (h : StandAt tokens i (ts ++ us)) : StandAt tokens (i + widths ts) us := by
  obtain ⟨before, after, rfl, rfl⟩ := h
  exact ⟨before ++ allWritten ts, after, by simp [allWritten_append],
    by rw [List.length_append, length_allWritten]⟩

theorem tail {t : TokenTree} (h : StandAt tokens i (t :: ts)) :
    StandAt tokens (i + t.width) ts := by
  have hback := (show StandAt tokens i ([t] ++ ts) from h).back
  rwa [widths_cons, widths_nil, Nat.add_zero] at hback

theorem inside {opened closed : Text.Position}
    (h : StandAt tokens i (group .parenthesis opened closed us :: ts)) :
    StandAt tokens (i + 1) us := by
  obtain ⟨before, after, rfl, rfl⟩ := h
  exact ⟨before ++ [⟨.openParen, "(", false⟩],
    ⟨.closeParen, ")", false⟩ :: (allWritten ts ++ after), by simp [allWritten, written], by simp⟩

theorem textAt_leaf {token : Leaf} {p : Text.Position} (h : StandAt tokens i (leaf token p :: ts)) :
    textAt tokens i = some token.text := by
  obtain ⟨before, after, rfl, rfl⟩ := h
  cases token <;> simp [textAt, allWritten, written, Leaf.text]

end StandAt

end TokenTree

open TokenTree (StandAt textAt)

variable {tokens : List Written}

/-! ## What is spelled is placed -/

theorem Extent.within_across {outer : Extent} {i : Nat} {ts : List TokenTree}
    (hstart : outer.start ≤ i) (hstop : i + widths ts ≤ outer.stop + 1) (hne : ts ≠ []) :
    outer.Within (.across i ts) := by
  have := widths_pos hne
  simp only [Extent.Within, Extent.across]
  omega

theorem Extent.within_refl (extent : Extent) (h : extent.start ≤ extent.stop) :
    extent.Within extent :=
  ⟨Nat.le_refl _, h, Nat.le_refl _⟩

theorem Options.Spelled.within {options : Options} {i : Nat} {ts : List TokenTree} {outer : Extent}
    (h : options.Spelled i ts) (hstart : outer.start ≤ i) (hstop : i + widths ts ≤ outer.stop + 1) :
    options.Within outer := by
  intro extent hextent
  rcases h.extent_eq with ⟨-, hnone⟩ | ⟨hne, hsome⟩
  · rw [hnone] at hextent
    cases hextent
  · rw [hsome] at hextent
    obtain rfl := Option.some.inj hextent
    exact Extent.within_across hstart hstop hne

theorem Options.none_within (outer : Extent) : Options.none.Within outer := nofun

theorem ArgumentsSpelled.within {args : Option Snippet} {i : Nat} {ts : List TokenTree}
    {outer : Extent} {code : Snippet} (h : ArgumentsSpelled args i ts) (hcode : code ∈ args)
    (hstart : outer.start ≤ i) (hstop : i + widths ts ≤ outer.stop + 1) : code.Within outer := by
  cases h with
  | none => cases hcode
  | some =>
    obtain rfl := Option.some.inj hcode
    refine ⟨⟨hstart, Nat.le_refl _, ?_⟩, Options.none_within _⟩
    simp [Extent.single] at hstop ⊢
    omega

/-- An element stands among its trees. -/
theorem Element.Spelled.within {e : Element} {i : Nat} {ts : List TokenTree} {outer : Extent}
    (h : e.Spelled i ts) (hstart : outer.start ≤ e.extent.start)
    (hstop : i + widths ts ≤ outer.stop + 1) : outer.Within e.extent := by
  have hpos := widths_pos h.ne_nil
  have hends := h.start_le
  have hlast := h.stop_eq
  exact ⟨hstart, hends.2, by omega⟩

/-- The options of an alternative, its elements and its label stand inside of it. -/
theorem Alt.parts_within {options : Options} {label : Option AltLabel}
    {elements : List Element} {extent : Extent} {i : Nat} {front body back : List TokenTree}
    (hoptions : options.Spelled i front)
    (hlabel : AltLabelSpelled label (i + widths front + widths body) back)
    (hvalue : extent = if front = [] ∧ body = [] then .single i else
      ⟨if front = [] then (elements.head?.map (·.extent.start)).getD i else i,
        i + widths (front ++ body ++ back) - 1⟩)
    (hbody : (body = [] ∧ elements = [.epsilon extent]) ∨
      (body ≠ [] ∧ elements ≠ [] ∧ Element.ListSpelled (i + widths front) body elements)) :
    options.Within extent ∧ (∀ l ∈ label, extent.Within (.single l.poundToken)) ∧
      (body ≠ [] → (∀ e ∈ elements.head?, extent.start ≤ e.extent.start) ∧
        i + widths front + widths body ≤ extent.stop + 1) := by
  have hpound : ∀ l ∈ label, l.poundToken = i + widths front + widths body ∧ widths back = 2 := by
    intro l hl
    cases hlabel with
    | none => cases hl
    | some =>
      obtain rfl := Option.some.inj hl
      exact ⟨rfl, by simp⟩
  by_cases hnothing : front = [] ∧ body = []
  · -- Nothing is written but a label, if there is one, and the alternative stands at its `#`.
    obtain ⟨rfl, rfl⟩ := hnothing
    rw [if_pos ⟨rfl, rfl⟩] at hvalue
    subst hvalue
    refine ⟨?_, fun l hl => ?_, fun hne => absurd rfl hne⟩
    · cases hoptions
      exact Options.none_within _
    · obtain ⟨hl, -⟩ := hpound l hl
      simp [hl, Extent.within_refl, Extent.single]
  · rw [if_neg hnothing, TokenTree.widths_append, TokenTree.widths_append] at hvalue
    have hstop : extent.stop = i + (widths front + widths body + widths back) - 1 := by
      rw [hvalue]
    have hpos : 0 < widths front + widths body := by
      by_cases hfront : front = []
      · have := widths_pos fun hbody => hnothing ⟨hfront, hbody⟩
        omega
      · have := widths_pos hfront
        omega
    have hstart : extent.start = i ∨ front = [] ∧ ∃ e ∈ elements.head?,
        extent.start = e.extent.start ∧ e.extent.start < i + widths body := by
      by_cases hfront : front = []
      · subst hfront
        rcases hbody with ⟨rfl, -⟩ | ⟨-, hne, helements⟩
        · exact absurd ⟨rfl, rfl⟩ hnothing
        · obtain ⟨e, es, rfl⟩ := List.exists_cons_of_ne_nil hne
          exact .inr ⟨rfl, e, rfl, by rw [hvalue]; rfl, by simpa using (helements.start rfl).2⟩
      · exact .inl (by rw [hvalue, if_neg hfront])
    refine ⟨?_, fun l hl => ?_, fun hne => ⟨fun e he => ?_, by omega⟩⟩
    · rcases hstart with hstart | ⟨rfl, -⟩
      · exact hoptions.within (by omega) (by omega)
      · cases hoptions
        exact Options.none_within _
    · obtain ⟨hl, hwidth⟩ := hpound l hl
      refine ⟨?_, Nat.le_refl _, ?_⟩ <;> simp only [Extent.single, hl]
      · rcases hstart with hstart | ⟨rfl, e, -, hstart, hlt⟩
        · omega
        · rw [TokenTree.widths_nil]
          omega
      · omega
    · rcases hbody with ⟨rfl, -⟩ | ⟨-, -, helements⟩
      · exact absurd rfl hne
      · have hfirst := helements.start he
        rcases hstart with hstart | ⟨-, e', he', hstart, -⟩
        · omega
        · obtain rfl := Option.some.inj (he.symm.trans he')
          omega

mutual
theorem Element.Spelled.placed : ∀ (e : Element) {i : Nat} {ts : List TokenTree},
    e.Spelled i ts → StandAt tokens i ts → e.Placed (textAt tokens)
  | .block alts options extent, i, ts, h, hts => by
      rw [Element.Spelled] at h
      obtain ⟨rfl, rfl, opened, closed, body, rfl, halts⟩ := h
      rw [Element.Placed]
      refine ⟨Options.none_within _, Alt.AllSpelled.placed alts halts hts.inside ?_ ?_⟩
      · simp [Extent.across]
      · simp [Extent.across]
        omega
  | .ruleRef ref, i, ts, h, hts => by
      rw [Element.Spelled] at h
      obtain ⟨-, hextent, -, p, args, options, rfl, hargs, hoptions⟩ := h
      rw [Element.Placed, hextent]
      refine ⟨hts.textAt_leaf, fun code hcode => hargs.within hcode ?_ ?_, hoptions.within ?_ ?_⟩
        <;> simp [Extent.across] <;> omega
  | .tokenRef name options extent, i, ts, h, hts => by
      rw [Element.Spelled] at h
      obtain ⟨-, rfl, p, rest, rfl, hoptions⟩ := h
      rw [Element.Placed]
      refine ⟨hts.textAt_leaf, hoptions.within ?_ ?_⟩
      · simp [Extent.across]
      · simp [Extent.across]
        omega
  | .quotation literal, i, ts, h, hts => by
      rw [Element.Spelled] at h
      obtain ⟨hextent, t, rest, rfl, ⟨-, -, p, rfl⟩, hoptions⟩ := h
      rw [Element.Placed, Quotation.Within, hextent]
      refine ⟨Extent.within_refl _ (by simp [Extent.across]; omega), hts.textAt_leaf,
        hoptions.within ?_ ?_⟩
      · simp [Extent.across]
      · simp [Extent.across]
        omega
  | .range first last extent, i, ts, h, hts => by
      rw [Element.Spelled] at h
      obtain ⟨rfl, hfirst, hfirstAt, hlast, hlastAt, t, u, joint, p, q, rfl, ⟨-, -, p', rfl⟩,
        ⟨-, -, q', rfl⟩⟩ := h
      rw [Element.Placed, Quotation.Within, Quotation.Within, hfirst, hfirstAt, hlast, hlastAt]
      refine ⟨⟨?_, hts.textAt_leaf, Options.none_within _⟩,
        ⟨?_, hts.tail.tail.tail.textAt_leaf, Options.none_within _⟩⟩ <;>
        simp [Extent.Within, Extent.behind, Extent.across, Extent.single]
  | .wildcard options extent, i, ts, h, hts => by
      rw [Element.Spelled] at h
      obtain ⟨rfl, joint, p, rest, rfl, hoptions⟩ := h
      rw [Element.Placed]
      refine hoptions.within ?_ ?_
      · simp [Extent.across]
      · simp [Extent.across]
        omega
  | .not operand extent, i, ts, h, hts => by
      rw [Element.Spelled] at h
      obtain ⟨rfl, -, joint, p, rest, rfl, hoperand⟩ := h
      rw [Element.Placed]
      have hstart := hoperand.start_le
      refine ⟨hoperand.within ?_ ?_, Element.Spelled.placed operand hoperand hts.tail⟩
      · simp only [Extent.across]
        omega
      · simp [Extent.across]
        omega
  | .set elements extent, i, ts, h, hts => by
      rw [Element.Spelled] at h
      obtain ⟨rfl, opened, closed, body, rfl, helements⟩ := h
      rw [Element.Placed]
      refine Element.SetSpelled.placed elements helements hts.inside ?_ ?_
      · simp [Extent.across]
      · simp [Extent.across]
        omega
  | .suffixed suffix greedy element extent, i, ts, h, hts => by
      rw [Element.Spelled] at h
      obtain ⟨rfl, -, front, back, rfl, helement, -⟩ := h
      rw [Element.Placed]
      have hstart := helement.start_le
      refine ⟨helement.within ?_ ?_, Element.Spelled.placed element helement hts.front⟩
      · simp only [Extent.across]
        omega
      · simp [Extent.across]
        omega
  | .labeled isList label token element extent, i, ts, h, hts => by
      rw [Element.Spelled] at h
      obtain ⟨rfl, rfl, -, p, sign, rest, rfl, -, helement⟩ := h
      have hstart := helement.start_le
      have hstop := helement.stop_eq
      rw [Element.Placed]
      refine ⟨hts.textAt_leaf, ⟨Nat.le_refl _, Nat.le_refl _, ?_⟩, helement.within ?_ ?_,
        Element.Spelled.placed element helement hts.tail.back⟩ <;>
        simp [Extent.across, Extent.single] <;> omega
  | .action code, i, ts, h, hts => by
      rw [Element.Spelled] at h
      rw [Element.Placed, h.1]
      exact Options.none_within _
  | .predicate code, i, ts, h, hts => by
      rw [Element.Spelled] at h
      obtain ⟨hextent, opened, closed, body, joint, p, rest, rfl, -, hoptions⟩ := h
      rw [Element.Placed, hextent]
      refine hoptions.within ?_ ?_
      · simp [Extent.across]
      · simp [Extent.across]
        omega
  | .command _ _ _, i, ts, h, hts => by
      rw [Element.Placed]
      trivial
  | .epsilon _, i, ts, h, hts => by
      rw [Element.Placed]
      trivial

theorem Element.ListSpelled.placed : ∀ (es : List Element) {i : Nat} {ts : List TokenTree}
    {outer : Extent}, Element.ListSpelled i ts es → StandAt tokens i ts →
      (∀ e ∈ es.head?, outer.start ≤ e.extent.start) → i + widths ts ≤ outer.stop + 1 →
      Element.AllPlaced (textAt tokens) outer es
  | [], _, _, _, _, _, _, _ => by
      rw [Element.AllPlaced]
      trivial
  | e :: es, i, ts, outer, h, hts, hstart, hstop => by
      rw [Element.ListSpelled] at h
      obtain ⟨front, back, rfl, he, -, hes⟩ := h
      rw [TokenTree.widths_append] at hstop
      have hpos := widths_pos he.ne_nil
      rw [Element.AllPlaced]
      refine ⟨he.within (hstart e rfl) (by omega), Element.Spelled.placed e he hts.front,
        Element.ListSpelled.placed es hes hts.back (fun e' he' => ?_) ?_⟩
      · have hnext := hes.start he'
        have hlast := he.stop_eq
        simp only [Extent.behind]
        omega
      · simp only [Extent.behind]
        omega

theorem Element.SetSpelled.placed : ∀ (es : List Element) {i : Nat} {ts : List TokenTree}
    {outer : Extent}, Element.SetSpelled i ts es → StandAt tokens i ts →
      outer.start ≤ i → i + widths ts ≤ outer.stop + 1 →
      Element.AllPlaced (textAt tokens) outer es
  | [], _, _, _, h, _, _, _ => by
      rw [Element.SetSpelled] at h
      exact h.elim
  | e :: es, i, ts, outer, h, hts, hstart, hstop => by
      rw [Element.SetSpelled] at h
      obtain ⟨-, front, back, rfl, he, hrest⟩ := h
      rw [TokenTree.widths_append] at hstop
      have hbegin := he.start_le
      have hend := he.stop_eq
      have hpos := widths_pos he.ne_nil
      rw [Element.AllPlaced]
      refine ⟨he.within (by omega) (by omega), Element.Spelled.placed e he hts.front, ?_⟩
      rcases hrest with ⟨rfl, -⟩ | ⟨joint, p, rest, rfl, hes⟩
      · rw [Element.AllPlaced]
        trivial
      · rw [TokenTree.widths_cons, TokenTree.width_leaf] at hstop
        refine Element.SetSpelled.placed es hes hts.back.tail ?_ ?_ <;>
          simp only [Extent.behind] <;> omega

theorem Alt.Spelled.placed : ∀ (a : Alt) {i : Nat} {ts : List TokenTree}, a.Spelled i ts →
    StandAt tokens i ts → a.Placed (textAt tokens)
  | ⟨elements, options, label, extent, info⟩, i, ts, h, hts => by
      have hextent := h.bounds.2.1
      rw [Alt.Spelled] at h
      obtain ⟨-, front, body, back, rfl, hoptions, hlabel, hvalue, hbody⟩ := h
      obtain ⟨hopts, hpound, hends⟩ := Alt.parts_within hoptions hlabel hvalue hbody
      rw [Alt.Placed]
      refine ⟨hopts, ?_, fun l hl => ⟨?_, hpound l hl⟩⟩
      · rcases hbody with ⟨-, rfl⟩ | ⟨hne, -, helements⟩
        · rw [Element.AllPlaced, Element.AllPlaced, Element.Placed]
          exact ⟨extent.within_refl hextent, trivial, trivial⟩
        · obtain ⟨hfirst, hlast⟩ := hends hne
          exact Element.ListSpelled.placed elements helements hts.front.back hfirst hlast
      · cases hlabel with
        | none => cases hl
        | some =>
          obtain rfl := Option.some.inj hl
          have htext := hts.back.textAt_leaf
          rwa [TokenTree.widths_append, ← Nat.add_assoc] at htext

theorem Alt.AllSpelled.placed : ∀ (as : List Alt) {i : Nat} {ts : List TokenTree}
    {outer : Extent}, Alt.AllSpelled i ts as → StandAt tokens i ts → outer.start ≤ i →
      i + widths ts ≤ outer.stop → Alt.AllPlaced (textAt tokens) outer as
  | [], _, _, _, _, _, _, _ => by
      rw [Alt.AllPlaced]
      trivial
  | a :: as, i, ts, outer, h, hts, hstart, hstop => by
      rw [Alt.AllSpelled] at h
      obtain ⟨front, back, rfl, ha, hrest⟩ := h
      rw [TokenTree.widths_append] at hstop
      have hbounds := ha.bounds
      rw [Alt.AllPlaced]
      refine ⟨⟨by omega, hbounds.2.1, by omega⟩, Alt.Spelled.placed a ha hts.front, ?_⟩
      rcases hrest with ⟨rfl, -⟩ | ⟨joint, p, rest, rfl, -, has⟩
      · rw [Alt.AllPlaced]
        trivial
      · rw [TokenTree.widths_cons, TokenTree.width_leaf] at hstop
        refine Alt.AllSpelled.placed as has hts.back.tail ?_ ?_ <;> simp only [Extent.behind] <;>
          omega
end

/-- Alternatives in a row lie inside the part from the first of them to the last. -/
theorem Alt.AllPlaced.narrow {textAt : Nat → Option String} {as : List Alt} {outer : Extent}
    (h : Alt.AllPlaced textAt outer as) (inner : Extent)
    (hstart : ∀ a ∈ as.head?, inner.start ≤ a.extent.start)
    (hstop : ∀ a ∈ as.getLast?, inner.stop = a.extent.stop) :
    Alt.AllPlaced textAt inner as ∧ (as ≠ [] → inner.start ≤ inner.stop) := by
  induction as generalizing outer inner with
  | nil => exact ⟨by rw [Alt.AllPlaced]; trivial, fun hne => absurd rfl hne⟩
  | cons a as ih =>
      rw [Alt.AllPlaced] at h
      obtain ⟨hwithin, ha, has⟩ := h
      have hbegin : inner.start ≤ a.extent.start := hstart a rfl
      have hend : a.extent.stop ≤ inner.stop ∧ Alt.AllPlaced textAt (inner.behind a.extent) as := by
        cases as with
        | nil => exact ⟨Nat.le_of_eq (hstop a rfl).symm, by rw [Alt.AllPlaced]; trivial⟩
        | cons b bs =>
            rw [Alt.AllPlaced] at has
            obtain ⟨hrest, hle⟩ := ih (by rw [Alt.AllPlaced]; exact has) (inner.behind a.extent)
              (fun b' hb' => by obtain rfl := Option.some.inj hb'; exact has.1.1)
              (fun l hl => hstop l hl)
            have := hle (List.cons_ne_nil _ _)
            simp only [Extent.behind] at this
            exact ⟨by omega, hrest⟩
      have hle := hwithin.2.1
      rw [Alt.AllPlaced]
      exact ⟨⟨⟨hbegin, hle, hend.1⟩, ha, hend.2⟩, fun _ => by omega⟩

theorem Snippet.InBrackets.within {code : Snippet} {i : Nat} {ts : List TokenTree}
    (h : code.InBrackets i ts) : code.Within (.across i ts) := by
  obtain ⟨before, opened, closed, body, after, rfl, rfl⟩ := h
  refine ⟨⟨?_, Nat.le_refl _, ?_⟩, Options.none_within _⟩
  · simp [Extent.across, Extent.single]
  · simp [Extent.across, Extent.single]
    omega

theorem Extent.Within.of_behind {outer front extent : Extent}
    (h : (outer.behind front).Within extent) (hfront : outer.Within front) : outer.Within extent := by
  simp only [Extent.Within, Extent.behind] at h hfront ⊢
  omega

theorem Alt.AllPlaced.within {textAt : Nat → Option String} {as : List Alt} {outer : Extent}
    (h : Alt.AllPlaced textAt outer as) {a : Alt} (ha : a ∈ as) : outer.Within a.extent := by
  induction as generalizing outer with
  | nil => cases ha
  | cons b bs ih =>
      rw [Alt.AllPlaced] at h
      rcases List.mem_cons.mp ha with rfl | ha
      · exact h.1
      · exact (ih h.2.2 ha).of_behind h.1

theorem RuleDef.Spelled.placed {rule : RuleDef} {i : Nat} {ts : List TokenTree}
    (h : rule.Spelled i ts) (hts : StandAt tokens i ts) : rule.Placed (textAt tokens) := by
  have hcodes := fun code hcode => (h.codes code hcode).within
  rw [← h.extent_eq] at hcodes
  have hextent := h.extent_eq
  obtain ⟨mark, heading, body, p, joint, joint', q, r, rfl, -, hname, halts, hstart, hstop⟩ :=
    h.parts
  have hstop' : rule.extent.stop =
      i + widths mark + 1 + widths heading + 1 + widths body := by
    rw [hextent]
    simp [Extent.across]
    omega
  have hstart' : rule.extent.start = i := by
    rw [hextent]
    rfl
  have hbody : StandAt tokens (i + widths mark + 1 + widths heading + 1) body :=
    hts.back.tail.back.tail.front
  -- The part between the colon and the semicolon.
  have hplaced : Alt.AllPlaced (textAt tokens)
      ⟨i + widths mark + 1 + widths heading + 1, rule.extent.stop⟩ rule.alts :=
    Alt.AllSpelled.placed rule.alts halts hbody (Nat.le_refl _) (Nat.le_of_eq hstop'.symm)
  have hne : rule.alts ≠ [] := by
    rintro hnil
    rw [hnil, Alt.AllSpelled] at halts
    exact halts
  have hfirst := hplaced.within (List.head_mem hne)
  have hlast := hplaced.within (List.getLast_mem hne)
  have hblockStart := hstart _ (List.head?_eq_some_head hne)
  have hblockStop := hstop _ (List.getLast?_eq_some_getLast hne)
  obtain ⟨halts', hblock⟩ := hplaced.narrow rule.block.extent
    (fun a ha => Nat.le_of_eq (hstart a ha)) hstop
  have hle := hblock hne
  refine ⟨?_, ?_, fun code hcode => hcodes code (.inl hcode),
    fun code hcode => hcodes code (.inr hcode), ?_, halts'⟩
  · rw [hname]
    exact hts.back.textAt_leaf
  · rw [hname]
    simp only [Extent.Within, Extent.single]
    omega
  · simp only [Extent.Within] at hfirst hlast ⊢
    omega

theorem RuleDef.Spelled.ne_nil {rule : RuleDef} {i : Nat} {ts : List TokenTree}
    (h : rule.Spelled i ts) : ts ≠ [] := by
  obtain ⟨mark, heading, body, p, joint, joint', q, r, rfl, -⟩ := h.parts
  simp

theorem RulesSpelled.ne_nil {rules : List RuleDef} {i : Nat} {ts : List TokenTree}
    (h : RulesSpelled i ts rules) (hne : rules ≠ []) : ts ≠ [] := by
  obtain ⟨rule, rules, rfl⟩ := List.exists_cons_of_ne_nil hne
  obtain ⟨front, back, rfl, hrule, -⟩ := h
  exact List.append_ne_nil_of_left_ne_nil hrule.ne_nil back

/-- The rules of a grammar stand one behind the other. -/
theorem RulesSpelled.placed {rules : List RuleDef} {i : Nat} {ts : List TokenTree} {outer : Extent}
    (h : RulesSpelled i ts rules) (hts : StandAt tokens i ts) (hstart : outer.start ≤ i)
    (hstop : i + widths ts ≤ outer.stop + 1) : RuleDef.AllPlaced (textAt tokens) outer rules := by
  induction rules generalizing i ts outer with
  | nil => trivial
  | cons rule rules ih =>
      obtain ⟨front, back, rfl, hrule, hrules⟩ := h
      rw [TokenTree.widths_append] at hstop
      have hne := hrule.ne_nil
      have hpos := widths_pos hne
      have hextent := hrule.extent_eq
      refine ⟨?_, hrule.placed hts.front, ih hrules hts.back ?_ ?_⟩
      · rw [hextent]
        exact Extent.within_across hstart (by omega) hne
      · rw [hextent]
        simp only [Extent.behind, Extent.across]
        omega
      · simp only [Extent.behind]
        omega

end GrammarCompiler
