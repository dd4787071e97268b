import GrammarCompiler.Proofs.Ast.Reading

/-!
# What the descent takes

The readers of alternatives and elements take trees that spell what they give back.
-/

namespace GrammarCompiler

open TokenTree (leaf group widths)

/-! ## Extents -/

/-- An element that is no lexer command reaches from its first tree to its last. -/
theorem Element.Spelled.extent_eq {e : Element} {i : Nat} {ts : List TokenTree}
    (h : e.Spelled i ts) (hcommand : e.isCommand = false) : e.extent = .across i ts := by
  cases e with
  | block =>
      rw [Element.Spelled] at h
      exact h.2.1
  | ruleRef =>
      rw [Element.Spelled] at h
      exact h.2.1
  | tokenRef =>
      rw [Element.Spelled] at h
      exact h.2.1
  | action code =>
      rw [Element.Spelled] at h
      obtain ⟨-, hextent, opened, closed, body, rfl, -⟩ := h
      rw [show (Element.action code).extent = code.extent from rfl, hextent]
      simp [Extent.single, Extent.across]
  | command => cases hcommand
  | epsilon => exact absurd h (by rw [Element.Spelled]; exact id)
  | _ =>
      rw [Element.Spelled] at h
      exact h.1

theorem Element.Spelled.ne_nil {e : Element} {i : Nat} {ts : List TokenTree}
    (h : e.Spelled i ts) : ts ≠ [] := by
  cases e with
  | epsilon => exact absurd h (by rw [Element.Spelled]; exact id)
  | command =>
      rw [Element.Spelled] at h
      obtain ⟨mark, p, rest, rfl, -⟩ := h
      simp
  | suffixed suffix greedy element extent =>
      rw [Element.Spelled] at h
      obtain ⟨-, -, front, back, rfl, -, hback, -⟩ := h
      cases hback <;> simp
  | _ =>
      rw [Element.Spelled] at h
      rintro rfl
      simp at h

theorem widths_pos {ts : List TokenTree} (h : ts ≠ []) : 0 < widths ts := by
  cases ts with
  | nil => exact absurd rfl h
  | cons t ts =>
      have := t.width_pos
      rw [TokenTree.widths_cons]
      omega

/-- An element ends with its last tree. -/
theorem Element.Spelled.stop_eq {e : Element} {i : Nat} {ts : List TokenTree} (h : e.Spelled i ts) :
    e.extent.stop = i + widths ts - 1 := by
  cases hcommand : e.isCommand with
  | false =>
      rw [h.extent_eq hcommand]
      rfl
  | true =>
      cases e with
      | command name arg extent =>
          rw [Element.Spelled] at h
          obtain ⟨mark, p, rest, rfl, rfl, -⟩ := h
          simp only [Element.extent, Extent.across, TokenTree.widths_append]
          omega
      | _ => cases hcommand

/-- An element begins with its first tree or, if it is a lexer command, behind its mark. -/
theorem Element.Spelled.start_le {e : Element} {i : Nat} {ts : List TokenTree} (h : e.Spelled i ts) :
    i ≤ e.extent.start ∧ e.extent.start ≤ e.extent.stop := by
  have hpos := widths_pos h.ne_nil
  cases hcommand : e.isCommand with
  | false =>
      rw [h.extent_eq hcommand, Extent.across]
      dsimp only
      omega
  | true =>
      cases e with
      | command name arg extent =>
          rw [Element.Spelled] at h
          obtain ⟨mark, p, rest, rfl, rfl, -⟩ := h
          simp only [Element.extent, Extent.across, TokenTree.widths_cons, TokenTree.width_leaf]
          omega
      | _ => cases hcommand

/-- Elements end with their last tree. -/
theorem Element.ListSpelled.ends {es : List Element} {i : Nat} {ts : List TokenTree}
    (h : Element.ListSpelled i ts es) (hne : es ≠ []) :
    ts ≠ [] ∧ es.getLast?.map (·.extent.stop) = some (i + widths ts - 1) := by
  induction es generalizing i ts with
  | nil => exact absurd rfl hne
  | cons e es ih =>
      rw [Element.ListSpelled] at h
      obtain ⟨front, back, rfl, he, -, hes⟩ := h
      refine ⟨by simp [he.ne_nil], ?_⟩
      cases es with
      | nil =>
          rw [Element.ListSpelled] at hes
          subst hes
          simp [he.stop_eq]
      | cons e' es =>
          obtain ⟨-, hlast⟩ := ih hes (List.cons_ne_nil _ _)
          rw [List.getLast?_cons_cons, hlast, TokenTree.widths_append, Nat.add_assoc]

/-- The first of some elements begins among their trees. -/
theorem Element.ListSpelled.start {es : List Element} {i : Nat} {ts : List TokenTree}
    (h : Element.ListSpelled i ts es) {e : Element} (he : e ∈ es.head?) :
    i ≤ e.extent.start ∧ e.extent.start < i + widths ts := by
  cases es with
  | nil => cases he
  | cons e' es =>
      obtain rfl : e' = e := Option.some.inj he
      rw [Element.ListSpelled] at h
      obtain ⟨front, back, rfl, he, -⟩ := h
      have hstart := he.start_le
      have hpos := widths_pos he.ne_nil
      rw [he.stop_eq] at hstart
      rw [TokenTree.widths_append]
      omega

theorem getLast?_append_of_ne_nil {ts us : List TokenTree} (h : us ≠ []) :
    (ts ++ us).getLast? = us.getLast? := by
  rw [List.getLast?_append, List.getLast?_eq_some_getLast h]
  rfl

/-- What begins with another character is apart from all that comes before. -/
theorem apart_of_head {us : List TokenTree} {c : Char}
    (h : ∀ joint p, us.head? ≠ some (leaf (.punct c joint) p)) (ts : List TokenTree) :
    Apart c ts us :=
  fun joint _ q _ => h joint q

/-- Elements behind others. -/
theorem Element.ListSpelled.append {es cs : List Element} {i : Nat} {ts cmds : List TokenTree}
    (h : Element.ListSpelled i ts es) (hcs : Element.ListSpelled (i + widths ts) cmds cs)
    (hdot : ∀ joint p, cmds.head? ≠ some (leaf (.punct '.' joint) p)) :
    Element.ListSpelled i (ts ++ cmds) (es ++ cs) := by
  induction es generalizing i ts with
  | nil =>
      rw [Element.ListSpelled] at h
      subst h
      exact hcs
  | cons e es ih =>
      rw [Element.ListSpelled] at h
      obtain ⟨front, back, rfl, he, hapart, hes⟩ := h
      rw [List.cons_append, Element.ListSpelled]
      refine ⟨front, back ++ cmds, List.append_assoc .., he, ?_, ih hes ?_⟩
      · cases back with
        | nil => exact apart_of_head hdot front
        | cons t back => exact hapart
      · rw [TokenTree.widths_append, ← Nat.add_assoc] at hcs
        exact hcs

theorem Options.Spelled.extent_eq {options : Options} {i : Nat} {ts : List TokenTree}
    (h : options.Spelled i ts) :
    (ts = [] ∧ options.extent = Option.none) ∨
      (ts ≠ [] ∧ options.extent = Option.some (Extent.across i ts)) := by
  cases h with
  | none => exact .inl ⟨rfl, rfl⟩
  | some => exact .inr ⟨List.cons_ne_nil _ _, rfl⟩

/-- Where an alternative begins and ends. -/
theorem extent_altOf {i : Nat} {options : Options} {es : List Element}
    {label : Option (AltLabel × Nat)} {opts body lab : List TokenTree}
    (hoptions : options.Spelled i opts) (hes : Element.ListSpelled (i + widths opts) body es)
    (hlast : ∀ l ∈ label, l.2 = i + widths opts + widths body + 1 ∧
      l.1.poundToken = i + widths opts + widths body ∧ widths lab = 2)
    (hnone : label = none → lab = []) :
    (Cursor.altOf i options es label).extent =
      if opts = [] ∧ body = [] then .single i else
        ⟨if opts = [] then (es.head?.map (·.extent.start)).getD i else i,
          i + widths (opts ++ body ++ lab) - 1⟩ := by
  unfold Cursor.altOf
  dsimp only
  cases es with
  | nil =>
      rw [Element.ListSpelled] at hes
      subst hes
      rcases hoptions.extent_eq with ⟨rfl, hextent⟩ | ⟨hopts, hextent⟩
      · rw [hextent]
        cases label with
        | none => rfl
        | some l =>
          have := (hlast l rfl).2.1
          simpa [Extent.single] using this
      · rw [hextent]
        cases label with
        | none => simp [hnone rfl, hopts, Extent.across]
        | some l =>
          obtain ⟨hl, -, hwidth⟩ := hlast l rfl
          simp [hl, hopts, Extent.across, hwidth]
          omega
  | cons e es =>
      obtain ⟨hbody, hstop⟩ := hes.ends (List.cons_ne_nil _ _)
      have hpos := widths_pos hbody
      have hstart : ((options.extent.map Extent.start).or
          ((e :: es).head?.map (·.extent.start))) =
          some (if opts = [] then e.extent.start else i) := by
        rcases hoptions.extent_eq with ⟨rfl, hextent⟩ | ⟨hopts, hextent⟩
        · rw [hextent]
          rfl
        · rw [hextent, if_neg hopts]
          rfl
      rw [hstart, hstop]
      cases label with
      | none => simp [hnone rfl, hbody, Nat.add_assoc]
      | some l =>
        obtain ⟨hl, -, hwidth⟩ := hlast l rfl
        simp [hl, hbody, hwidth, Nat.add_assoc]
        omega

/-- An alternative is spelled by its parts. -/
theorem altOf_spelled {i : Nat} {options : Options} {es : List Element}
    {label : Option (AltLabel × Nat)} {opts body lab : List TokenTree}
    (hoptions : options.Spelled i opts) (hes : Element.ListSpelled (i + widths opts) body es)
    (hlabel : AltLabelSpelled (label.map (·.1)) (i + widths opts + widths body) lab)
    (hlast : ∀ l ∈ label, l.2 = i + widths opts + widths body + 1 ∧
      l.1.poundToken = i + widths opts + widths body ∧ widths lab = 2)
    (hnone : label = none → lab = []) :
    (Cursor.altOf i options es label).Spelled i (opts ++ body ++ lab) := by
  have hextent := extent_altOf hoptions hes hlast hnone
  unfold Cursor.altOf at hextent ⊢
  rw [Alt.Spelled]
  cases es with
  | nil =>
      rw [Element.ListSpelled] at hes
      subst hes
      refine ⟨rfl, opts, [], lab, rfl, hoptions, hlabel, hextent.trans ?_, .inl ⟨rfl, rfl⟩⟩
      by_cases hopts : opts = [] <;> simp [hopts]
  | cons e es =>
      exact ⟨rfl, opts, body, lab, rfl, hoptions, hlabel, hextent,
        .inr ⟨(hes.ends (List.cons_ne_nil _ _)).1, List.cons_ne_nil _ _, hes⟩⟩

/-- An alternative stands among its trees, or at the token behind them. -/
theorem Alt.Spelled.bounds {a : Alt} {i : Nat} {ts : List TokenTree} (h : a.Spelled i ts) :
    i ≤ a.extent.start ∧ a.extent.start ≤ a.extent.stop ∧ a.extent.stop ≤ i + widths ts := by
  obtain ⟨elements, options, label, extent, info⟩ := a
  rw [Alt.Spelled] at h
  obtain ⟨-, front, body, back, rfl, -, -, rfl, hbody⟩ := h
  dsimp only
  split
  · next hnothing =>
      simp only [Extent.single]
      omega
  · next hsomething =>
      dsimp only
      rw [TokenTree.widths_append, TokenTree.widths_append]
      by_cases hfront : front = []
      · subst hfront
        rcases hbody with ⟨rfl, -⟩ | ⟨hne, hsome, hes⟩
        · exact absurd ⟨rfl, rfl⟩ hsomething
        · cases elements with
          | nil => exact absurd rfl hsome
          | cons e es =>
              have hstart := hes.start (e := e) rfl
              simp only [TokenTree.widths_nil] at hstart ⊢
              rw [if_pos trivial, List.head?_cons, Option.map_some, Option.getD_some]
              omega
      · have hpos := widths_pos hfront
        rw [if_neg hfront]
        omega

/-! ## Dots -/

theorem EntriesSpelled.getLast? {entries : List (String × String)} {ts : List TokenTree}
    (h : EntriesSpelled entries ts) : ∃ joint p, ts.getLast? = some (leaf (.punct '>' joint) p) := by
  induction entries generalizing ts with
  | nil => exact h.elim
  | cons entry entries ih =>
      cases entries with
      | nil =>
          obtain ⟨assignment, joint, p, q, rfl, -⟩ := h
          exact ⟨joint, q, by rw [← List.cons_append, List.getLast?_concat]⟩
      | cons entry' entries =>
          obtain ⟨assignment, joint, p, q, rest, rfl, -, hrest⟩ := h
          obtain ⟨joint', r, hlast⟩ := ih hrest
          refine ⟨joint', r, ?_⟩
          rw [← List.cons_append, ← List.singleton_append (l := rest), ← List.append_assoc,
            List.getLast?_append, hlast]
          rfl

/-- Where something ends with a dot, no options stand at its end. -/
theorem Options.Spelled.eq_nil_of_dot {options : Options} {i : Nat} {front rest : List TokenTree}
    {joint : Bool} {p : Text.Position} (h : options.Spelled i rest)
    (hlast : (front ++ rest).getLast? = Option.some (leaf (.punct '.' joint) p)) : rest = [] := by
  cases h with
  | none => rfl
  | some _ joint' q hentries =>
      obtain ⟨joint'', r, hend⟩ := hentries.getLast?
      rw [← List.singleton_append, ← List.append_assoc, List.getLast?_append, hend] at hlast
      simp at hlast

theorem Element.Spelled.endsWithDot : ∀ {e : Element} {i : Nat} {ts : List TokenTree}
    {joint : Bool} {p : Text.Position}, e.Spelled i ts → e.isCommand = false →
      ts.getLast? = some (leaf (.punct '.' joint) p) → e.endsWithDot = true
  | .block .., i, ts, joint, p, h, _, hlast => by
      rw [Element.Spelled] at h
      obtain ⟨-, -, opened, closed, body, rfl, -⟩ := h
      simp at hlast
  | .ruleRef r, i, ts, joint, p, h, _, hlast => by
      rw [Element.Spelled] at h
      obtain ⟨-, -, -, q, args, options, rfl, hargs, hoptions⟩ := h
      rw [← List.cons_append] at hlast
      obtain rfl := hoptions.eq_nil_of_dot hlast
      generalize r.args = arguments at hargs
      cases hargs <;> simp at hlast
  | .tokenRef .., i, ts, joint, p, h, _, hlast => by
      rw [Element.Spelled] at h
      obtain ⟨-, -, q, rest, rfl, hoptions⟩ := h
      rw [← List.singleton_append] at hlast
      obtain rfl := hoptions.eq_nil_of_dot hlast
      simp at hlast
  | .quotation literal, i, ts, joint, p, h, _, hlast => by
      rw [Element.Spelled] at h
      obtain ⟨-, t, rest, rfl, ⟨-, -, q, rfl⟩, hoptions⟩ := h
      rw [← List.singleton_append] at hlast
      obtain rfl := hoptions.eq_nil_of_dot hlast
      simp at hlast
  | .range .., i, ts, joint, p, h, _, hlast => by
      rw [Element.Spelled] at h
      obtain ⟨-, -, -, -, -, t, u, joint', q, r, rfl, -, -, -, s, rfl⟩ := h
      simp at hlast
  | .wildcard options extent, i, ts, joint, p, h, _, hlast => by
      rw [Element.Spelled] at h
      obtain ⟨-, joint', q, rest, rfl, hoptions⟩ := h
      rw [← List.singleton_append] at hlast
      obtain rfl := hoptions.eq_nil_of_dot hlast
      cases hoptions
      rfl
  | .not operand extent, i, ts, joint, p, h, _, hlast => by
      rw [Element.Spelled] at h
      obtain ⟨-, hshape, joint', q, rest, rfl, hoperand⟩ := h
      rw [← List.singleton_append, getLast?_append_of_ne_nil hoperand.ne_nil] at hlast
      rcases hshape with ⟨elements, extent', rfl⟩ | hnegatable
      · exact absurd (Element.Spelled.endsWithDot hoperand rfl hlast) Bool.false_ne_true
      · have hdot := Element.Spelled.endsWithDot hoperand
          (by cases operand <;> first | rfl | cases hnegatable) hlast
        cases operand <;> first | exact absurd hdot Bool.false_ne_true | cases hnegatable
  | .set .., i, ts, joint, p, h, _, hlast => by
      rw [Element.Spelled] at h
      obtain ⟨-, opened, closed, body, rfl, -⟩ := h
      simp at hlast
  | .suffixed suffix .., i, ts, joint, p, h, _, hlast => by
      rw [Element.Spelled] at h
      obtain ⟨-, -, front, back, rfl, -, hback, -⟩ := h
      cases hback with
      | greedy => cases suffix <;> simp [Suffix.char] at hlast
      | reluctant => simp at hlast
  | .labeled _ _ _ inner _, i, ts, joint, p, h, _, hlast => by
      rw [Element.Spelled] at h
      obtain ⟨-, -, hbare, q, sign, rest, rfl, -, hinner⟩ := h
      rw [← List.cons_append, getLast?_append_of_ne_nil hinner.ne_nil] at hlast
      show inner.endsWithDot = true
      exact Element.Spelled.endsWithDot hinner (by cases inner <;> first | rfl | cases hbare) hlast
  | .action code, i, ts, joint, p, h, _, hlast => by
      rw [Element.Spelled] at h
      obtain ⟨-, -, opened, closed, body, rfl, -⟩ := h
      simp at hlast
  | .predicate code, i, ts, joint, p, h, _, hlast => by
      rw [Element.Spelled] at h
      obtain ⟨-, opened, closed, body, joint', q, rest, rfl, -, hoptions⟩ := h
      rw [← List.singleton_append, ← List.singleton_append (l := rest),
        ← List.append_assoc] at hlast
      obtain rfl := hoptions.eq_nil_of_dot hlast
      simp at hlast
  | .command .., i, ts, joint, p, _, hcommand, _ => by cases hcommand
  | .epsilon _, i, ts, joint, p, h, _, _ => by
      rw [Element.Spelled] at h
      exact h.elim

/-- What does not end with a dot is apart from all that follows. -/
theorem Element.Spelled.apart {e : Element} {i : Nat} {ts : List TokenTree} (h : e.Spelled i ts)
    (hcommand : e.isCommand = false) (hdot : e.endsWithDot = false) (us : List TokenTree) :
    Apart '.' ts us := by
  intro joint p q hlast
  rw [h.endsWithDot hcommand hlast] at hdot
  cases hdot

/-! ## The descent -/

namespace Cursor

theorem isCommand_of_isBare {e : Element} (h : e.isBare = true) : e.isCommand = false := by
  cases e with
  | command => cases h
  | _ => rfl

theorem isUnsuffixed_of_isBare {e : Element} (h : e.isBare = true) : e.isUnsuffixed = true := by
  cases e with
  | labeled => cases h
  | _ => exact h

theorem isBare_of_isNegatable {e : Element} (h : isNegatable e = true) : e.isBare = true := by
  cases e with
  | tokenRef | quotation | range => rfl
  | _ => cases h

/-- What is inside a group in parentheses. -/
theorem takes_inside {c : Cursor} {body inner : List TokenTree} {closed : Text.Position}
    {d : Cursor} (h : (c.inside body closed).Takes inner d) (hempty : d.trees.isEmpty = true) :
    inner = body := by
  have htrees : body = inner ++ d.trees := h.1
  rw [List.isEmpty_iff.mp hempty, List.append_nil] at htrees
  exact htrees.symm

/-- A character that is not joint with another is apart from what is read behind it. -/
theorem apart_bars {c : Cursor} {char : Char} {joint : Bool} {p : Text.Position}
    {used rest : List TokenTree} (h : c.atPunct (String.ofList [char, char]) = false)
    (htrees : c.trees = leaf (.punct char joint) p :: used ++ rest) :
    Apart char [leaf (.punct char joint) p] used := by
  intro joint' q r hlast hhead
  cases used with
  | nil => cases hhead
  | cons t used =>
      obtain rfl := Option.some.inj hhead
      simp only [List.getLast?_singleton, Option.some.injEq, TokenTree.leaf.injEq,
        Leaf.punct.injEq, true_and] at hlast
      unfold atPunct at h
      rw [htrees, String.toList_ofList, hlast.1] at h
      simp [spells] at h

/-- A question mark behind code makes a predicate of it. -/
theorem punct?_of_action {c : Cursor} {e : Element} {d : c.Shorter} (h : c.atom = .ok (e, d))
    {used : List TokenTree} (htakes : c.Takes used d.1) (hspelled : e.Spelled c.index used)
    (hbare : e.isBare = true) (haction : e.isAction = true) : d.1.punct? '?' = none := by
  cases e with
  | action code =>
      rw [Element.Spelled] at hspelled
      obtain ⟨-, -, opened, closed, body, rfl, -⟩ := hspelled
      have htrees : c.trees = group .brace opened closed body :: d.1.trees := htakes.1
      rw [atom] at h
      split at h
      · next h' => rw [htrees] at h'; cases h'
      · cases h
      · unfold embedded at h
        obtain ⟨⟨⟨index, text⟩, d₁, hd₁⟩, hgroup, h⟩ := ok_of_bind h
        dsimp only at h
        split at h
        · obtain ⟨⟨options, f, hf⟩, -, h⟩ := ok_of_bind h
          cases h
        · next hmark =>
            obtain ⟨-, rfl⟩ := Prod.mk.inj (Except.ok.inj h)
            exact hmark
      · next hne => exact absurd htrees (hne opened closed body d.1.trees)
  | labeled => cases hbare
  | _ => cases haction

/-- A suffix is made part of the element. -/
theorem suffixed_cases {d : Cursor} {element e : Element} {f : d.Rest}
    (h : d.suffixed element = .ok (e, f)) :
    (∃ suffix greedy extent, e = .suffixed suffix greedy element extent) ∨
      (e = element ∧ f.1 = d) := by
  unfold suffixed at h
  dsimp only at h
  split at h
  · obtain ⟨rfl, rfl⟩ := Prod.mk.inj (Except.ok.inj h)
    exact .inr ⟨rfl, rfl⟩
  · split at h
    · obtain ⟨rfl, -⟩ := Prod.mk.inj (Except.ok.inj h)
      exact .inl ⟨_, _, _, rfl⟩
    · obtain ⟨rfl, -⟩ := Prod.mk.inj (Except.ok.inj h)
      exact .inl ⟨_, _, _, rfl⟩

/-- A wildcard that is no sign of a range is apart from a dot behind it. -/
theorem apart_wildcard {c : Cursor} {e : Element} {d : c.Shorter} (hdots : c.atPunct ".." = false)
    (h : c.wildcard = .ok (e, d)) {used : List TokenTree} (hused : c.Takes used d.1) :
    Apart '.' used d.1.trees := by
  obtain ⟨-, used', htakes, hspelled⟩ := takes_wildcard h
  obtain rfl : used' = used := List.append_cancel_right (htakes.1.symm.trans hused.1)
  unfold wildcard at h
  obtain ⟨⟨index, d₁, hd₁⟩, hdot, h⟩ := ok_of_bind h
  obtain ⟨⟨options, f, hf⟩, hoptions, h⟩ := ok_of_bind h
  obtain ⟨rfl, rfl⟩ := Prod.mk.inj (Except.ok.inj h)
  obtain ⟨rest, htakesOptions, hoptionsSpelled⟩ := takes_options hoptions
  obtain ⟨-, joint, p, htakesDot⟩ := takes_punct hdot
  obtain rfl : used' = [leaf (.punct '.' joint) p] ++ rest :=
    List.append_cancel_right (htakes.1.symm.trans (htakesDot.trans htakesOptions).1)
  intro joint' q r hlast
  obtain rfl := hoptionsSpelled.eq_nil_of_dot hlast
  -- without options, what follows is the second tree
  intro hhead
  obtain ⟨us, hus⟩ := List.head?_eq_some_iff.mp hhead
  have hone : f.trees = [leaf (.punct '.' joint') r] ++ us := hus
  have hboth : c.trees = leaf (.punct '.' joint) p :: [leaf (.punct '.' joint') r] ++ us := by
    rw [(htakesDot.trans htakesOptions).1]
    show _ ++ f.trees = _
    rw [hone]
    simp
  exact apart_bars (show c.atPunct (String.ofList ['.', '.']) = false from hdots) hboth
    joint' q r hlast rfl

mutual
theorem takes_alts (c : Cursor) {as : List Alt} {d : c.Rest} (h : c.alts = .ok (as, d)) :
    ∃ used, c.Takes used d.1 ∧ Alt.AllSpelled c.index used as := by
  rw [alts] at h
  obtain ⟨⟨alt, d₁, hd₁⟩, halt, h⟩ := ok_of_bind h
  obtain ⟨front, htakes, hspelled⟩ := takes_alt c halt
  dsimp only at h
  split at h
  · next bar d₂ hd₂ hbar =>
      obtain ⟨⟨rest, f, hf⟩, hrest, h⟩ := ok_of_bind h
      obtain ⟨rfl, rfl⟩ := Prod.mk.inj (Except.ok.inj h)
      obtain ⟨hbars, hbar⟩ : d₁.atPunct "||" = false ∧
          d₁.punct? '|' = some (bar, ⟨d₂, hd₂⟩) := by
        split at hbar
        · cases hbar
        · next hbars => exact ⟨by simpa using hbars, hbar⟩
      obtain ⟨-, joint, p, htakesBar⟩ := takes_punct? hbar
      obtain ⟨used, htakesRest, hspelledRest⟩ := takes_alts d₂ hrest
      refine ⟨_, htakes.trans (htakesBar.trans htakesRest), ?_⟩
      rw [Alt.AllSpelled]
      refine ⟨front, _, rfl, hspelled, .inr ⟨joint, p, used, rfl, ?_, ?_⟩⟩
      · exact apart_bars hbars (htakesBar.trans htakesRest).1
      have hindex : d₂.index = c.index + widths front + 1 := by
        rw [htakesBar.2, htakes.2]
        simp
      rw [← hindex]
      exact hspelledRest
  · obtain ⟨rfl, rfl⟩ := Prod.mk.inj (Except.ok.inj h)
    refine ⟨front, htakes, ?_⟩
    rw [Alt.AllSpelled]
    exact ⟨front, [], (List.append_nil _).symm, hspelled, .inl ⟨rfl, rfl⟩⟩
termination_by 5 * c.size + 4
decreasing_by all_goals omega

theorem takes_alt (c : Cursor) {a : Alt} {d : c.Rest} (h : c.alt = .ok (a, d)) :
    ∃ used, c.Takes used d.1 ∧ a.Spelled c.index used := by
  rw [alt] at h
  obtain ⟨⟨options, d₁, hd₁⟩, hoptions, h⟩ := ok_of_bind h
  obtain ⟨⟨es, d₂, hd₂⟩, helements, h⟩ := ok_of_bind h
  obtain ⟨⟨cs, d₃, hd₃⟩, hcommands, h⟩ := ok_of_bind h
  obtain ⟨⟨label, d₄, hd₄⟩, hlabel, h⟩ := ok_of_bind h
  obtain ⟨rfl, rfl⟩ := Prod.mk.inj (Except.ok.inj h)
  obtain ⟨opts, htakesOptions, hopts⟩ := takes_options hoptions
  obtain ⟨body, htakesBody, hbody⟩ := takes_elements d₁ helements
  obtain ⟨cmds, htakesCommands, hcmds, hdot⟩ := takes_commandList hcommands
  obtain ⟨lab, htakesLabel, hlab, hlast, hnone⟩ := takes_altLabel hlabel
  refine ⟨_, (htakesOptions.trans (htakesBody.trans htakesCommands)).trans htakesLabel, ?_⟩
  have h₁ : d₁.index = c.index + widths opts := htakesOptions.2
  have h₂ : d₂.index = c.index + widths opts + widths body := by
    rw [← h₁]
    exact htakesBody.2
  have h₃ : d₃.index = c.index + widths opts + widths (body ++ cmds) := by
    rw [TokenTree.widths_append, ← Nat.add_assoc, ← h₂]
    exact htakesCommands.2
  rw [h₁] at hbody
  rw [h₂] at hcmds
  exact altOf_spelled hopts (hbody.append hcmds hdot) (h₃ ▸ hlab) (h₃ ▸ hlast) hnone
termination_by 5 * c.size + 3
decreasing_by omega

theorem takes_elements (c : Cursor) {es : List Element} {d : c.Rest}
    (h : c.elements = .ok (es, d)) :
    ∃ used, c.Takes used d.1 ∧ Element.ListSpelled c.index used es := by
  rw [elements] at h
  split at h
  · obtain ⟨rfl, rfl⟩ := Prod.mk.inj (Except.ok.inj h)
    exact ⟨[], .refl _, by rw [Element.ListSpelled]⟩
  · obtain ⟨⟨element, d₁, hd₁⟩, helement, h⟩ := ok_of_bind h
    obtain ⟨⟨rest, e, he⟩, hrest, h⟩ := ok_of_bind h
    obtain ⟨rfl, rfl⟩ := Prod.mk.inj (Except.ok.inj h)
    obtain ⟨front, htakes, hspelled, -, hapart⟩ := takes_element c helement
    obtain ⟨back, htakes', hspelled'⟩ := takes_elements d₁ hrest
    refine ⟨_, htakes.trans htakes', ?_⟩
    rw [Element.ListSpelled]
    have hindex : d₁.index = c.index + widths front := htakes.2
    refine ⟨front, back, rfl, hspelled, ?_, hindex ▸ hspelled'⟩
    cases back with
    | nil => exact apart_of_head (by simp) front
    | cons t back =>
        rw [show d₁.trees = t :: back ++ _ from htakes'.1] at hapart
        exact hapart
termination_by 5 * c.size + 2
decreasing_by all_goals omega

theorem takes_element (c : Cursor) {e : Element} {d : c.Shorter} (h : c.element = .ok (e, d)) :
    ∃ used, c.Takes used d.1 ∧ e.Spelled c.index used ∧ e.isCommand = false ∧
      Apart '.' used d.1.trees := by
  rw [element] at h
  obtain ⟨⟨label, d₁, hd₁⟩, hlabel, h⟩ := ok_of_bind h
  obtain ⟨⟨bare, d₂, hd₂⟩, hbare, h⟩ := ok_of_bind h
  obtain ⟨⟨e', f, hf⟩, hsuffix, h⟩ := ok_of_bind h
  obtain ⟨rfl, rfl⟩ := Prod.mk.inj (Except.ok.inj h)
  obtain ⟨sign, htakesLabel, hsign⟩ := takes_elementLabel hlabel
  obtain ⟨used, htakes, hspelled, hplain, hapart⟩ := takes_atom d₁ hbare
  have hextent := hspelled.extent_eq (isCommand_of_isBare hplain)
  have hcode : bare.isAction = true → d₂.punct? '?' = none :=
    punct?_of_action hbare htakes hspelled hplain
  -- a suffix stands between, and without one all ends where the atom does
  have hend : ∀ {front all : List TokenTree} {labeled : Element},
      e'.isCommand = false → c.Takes (front ++ used) d₂ → c.Takes all f → e'.Spelled c.index all →
      d₂.suffixed labeled = .ok (e', ⟨f, hf⟩) → Apart '.' all f.trees := by
    intro front all labeled hcommand hfront hall hspelled' hsuffix
    rcases suffixed_cases hsuffix with ⟨suffix, greedy, extent, rfl⟩ | ⟨-, hsame⟩
    · exact hspelled'.apart hcommand rfl _
    · obtain rfl : f = d₂ := hsame
      obtain rfl : all = front ++ used := List.append_cancel_right (hall.1.symm.trans hfront.1)
      intro joint p q hlast
      rw [getLast?_append_of_ne_nil hspelled.ne_nil] at hlast
      exact hapart joint p q hlast
  cases label with
  | none =>
      subst hsign
      have hindex : d₁.index = c.index := htakesLabel.2
      have hboth := htakesLabel.trans htakes
      rw [List.nil_append] at hboth
      obtain ⟨all, hall, hspelled', -, hcommand⟩ := takes_suffixed hboth
        (hindex ▸ hspelled) (isUnsuffixed_of_isBare hplain) (hindex ▸ hextent) hcode hsuffix
      exact ⟨all, hall, hspelled', hcommand, hend hcommand
        (show c.Takes ([] ++ used) d₂ from hboth) hall hspelled' hsuffix⟩
  | some label =>
      obtain ⟨hlabelIndex, p, mark, rfl, hmark⟩ := hsign
      have hindex : d₁.index = c.index + 1 + widths mark := by
        have : d₁.index = c.index + widths (leaf (.ident label.name) p :: mark) := htakesLabel.2
        rw [this, TokenTree.widths_cons, TokenTree.width_leaf, Nat.add_assoc]
      have hacross : (label.onto bare).extent =
          .across c.index (leaf (.ident label.name) p :: mark ++ used) := by
        have hpos := widths_pos hspelled.ne_nil
        rw [show (label.onto bare).extent = ⟨label.index, bare.extent.stop⟩ from rfl,
          hlabelIndex, hextent, hindex]
        simp only [Extent.across, TokenTree.widths_append, TokenTree.widths_cons,
          TokenTree.width_leaf]
        congr 1
        omega
      have hlabeled : (label.onto bare).Spelled c.index
          (leaf (.ident label.name) p :: mark ++ used) := by
        unfold ElementLabel.onto
        rw [Element.Spelled]
        exact ⟨hacross, hlabelIndex, hplain, p, mark, used, rfl, hmark, hindex ▸ hspelled⟩
      obtain ⟨all, hall, hspelled', -, hcommand⟩ :=
        takes_suffixed (htakesLabel.trans htakes) hlabeled rfl hacross hcode hsuffix
      exact ⟨all, hall, hspelled', hcommand,
        hend hcommand (htakesLabel.trans htakes) hall hspelled' hsuffix⟩
termination_by 5 * c.size + 1
decreasing_by omega

theorem takes_atom (c : Cursor) {e : Element} {d : c.Shorter} (h : c.atom = .ok (e, d)) :
    ∃ used, c.Takes used d.1 ∧ e.Spelled c.index used ∧ e.isBare = true ∧
      Apart '.' used d.1.trees := by
  rw [atom] at h
  split at h
  · next opened closed body rest htrees =>
      have hsize := size_inside_lt htrees
      obtain ⟨⟨as, d₁, hd₁⟩, halts, h⟩ := ok_of_bind h
      dsimp only at h
      split at h
      · cases h
      · next hempty =>
          obtain ⟨rfl, rfl⟩ := Prod.mk.inj (Except.ok.inj h)
          obtain ⟨inner, htakes, hspelled⟩ := takes_alts (c.inside body closed) halts
          obtain rfl := takes_inside htakes (by simpa using hempty)
          have hblock : (Element.block as .none ⟨c.index, c.index +
              (group .parenthesis opened closed inner).width - 1⟩).Spelled c.index
                [group .parenthesis opened closed inner] := by
            rw [Element.Spelled]
            exact ⟨rfl, by simp [Extent.across], opened, closed, inner, rfl, hspelled⟩
          exact ⟨[_], ⟨htrees, by simp [behind]⟩, hblock, rfl, hblock.apart rfl rfl _⟩
  · cases h
  · obtain ⟨hplain, hdot, used, htakes, hspelled⟩ := takes_embedded h
    exact ⟨used, htakes, hspelled, hplain, hspelled.apart (isCommand_of_isBare hplain) hdot _⟩
  · split at h
    · next tilde d₁ hd₁ htilde =>
        obtain ⟨⟨operand, e', he'⟩, hoperand, h⟩ := ok_of_bind h
        obtain ⟨rfl, rfl⟩ := Prod.mk.inj (Except.ok.inj h)
        obtain ⟨rfl, joint, p, htakesTilde⟩ := takes_punct? htilde
        obtain ⟨used, htakes, hspelled, hshape⟩ := takes_setOperand d₁ hoperand
        have hindex : d₁.index = c.index + 1 := by
          rw [htakesTilde.2]
          simp
        have hcommand : operand.isCommand = false := by
          rcases hshape with ⟨es, ext, rfl⟩ | hnegatable
          · rfl
          · exact isCommand_of_isBare (isBare_of_isNegatable hnegatable)
        have hnot : (Element.not operand ⟨c.index, operand.extent.stop⟩).Spelled c.index
            ([leaf (.punct '~' joint) p] ++ used) := by
          rw [Element.Spelled]
          refine ⟨?_, hshape, joint, p, used, rfl, hindex ▸ hspelled⟩
          have hpos := widths_pos hspelled.ne_nil
          rw [hspelled.extent_eq hcommand, hindex]
          simp only [Extent.across, TokenTree.widths_append, TokenTree.widths_cons,
            TokenTree.width_leaf, TokenTree.widths_nil]
          congr 1
          omega
        exact ⟨_, htakesTilde.trans htakes, hnot, rfl, hnot.apart rfl rfl _⟩
    · split at h
      · next hdot =>
        obtain ⟨hplain, used, htakes, hspelled⟩ := takes_wildcard h
        have hdots : c.atPunct ".." = false := by
          rw [Bool.and_eq_true, Bool.not_eq_true'] at hdot
          exact hdot.2
        exact ⟨used, htakes, hspelled, hplain, apart_wildcard hdots h htakes⟩
      · split at h
        · obtain ⟨hplain, hdot, used, htakes, hspelled⟩ := takes_quotationOrRange h
          exact ⟨used, htakes, hspelled, hplain,
            hspelled.apart (isCommand_of_isBare hplain) hdot _⟩
        · next hliteral =>
          obtain ⟨hplain, hdot, used, htakes, hspelled⟩ :=
            takes_reference (by simpa using hliteral) h
          exact ⟨used, htakes, hspelled, hplain,
            hspelled.apart (isCommand_of_isBare hplain) hdot _⟩
termination_by 5 * c.size
decreasing_by all_goals omega

theorem takes_setOperand (c : Cursor) {e : Element} {d : c.Shorter}
    (h : c.setOperand = .ok (e, d)) :
    ∃ used, c.Takes used d.1 ∧ e.Spelled c.index used ∧
      ((∃ elements extent, e = .set elements extent) ∨ isNegatable e = true) := by
  rw [setOperand] at h
  split at h
  · next opened closed body rest htrees =>
      have hsize := size_inside_lt htrees
      obtain ⟨⟨es, d₁, hd₁⟩, helements, h⟩ := ok_of_bind h
      dsimp only at h
      split at h
      · cases h
      · next hempty =>
          obtain ⟨rfl, rfl⟩ := Prod.mk.inj (Except.ok.inj h)
          obtain ⟨inner, htakes, hspelled⟩ := takes_setElements (c.inside body closed) helements
          obtain rfl := takes_inside htakes (by simpa using hempty)
          refine ⟨[_], ⟨htrees, by simp [behind]⟩, ?_, .inl ⟨_, _, rfl⟩⟩
          rw [Element.Spelled]
          exact ⟨by simp [Extent.across], opened, closed, inner, rfl, hspelled⟩
  · obtain ⟨used, htakes, hspelled, hnegatable⟩ := takes_setElement c h
    exact ⟨used, htakes, hspelled, .inr hnegatable⟩
termination_by 5 * c.size + 2
decreasing_by all_goals omega

theorem takes_setElements (c : Cursor) {es : List Element} {d : c.Shorter}
    (h : c.setElements = .ok (es, d)) :
    ∃ used, c.Takes used d.1 ∧ Element.SetSpelled c.index used es := by
  rw [setElements] at h
  obtain ⟨⟨element, d₁, hd₁⟩, helement, h⟩ := ok_of_bind h
  obtain ⟨front, htakes, hspelled, hnegatable⟩ := takes_setElement c helement
  dsimp only at h
  split at h
  · next d₂ hd₂ hbar =>
      obtain ⟨⟨rest, f, hf⟩, hrest, h⟩ := ok_of_bind h
      obtain ⟨rfl, rfl⟩ := Prod.mk.inj (Except.ok.inj h)
      obtain ⟨-, joint, p, htakesBar⟩ := takes_punct? hbar
      obtain ⟨used, htakesRest, hspelledRest⟩ := takes_setElements d₂ hrest
      refine ⟨_, htakes.trans (htakesBar.trans htakesRest), ?_⟩
      rw [Element.SetSpelled]
      refine ⟨hnegatable, front, _, rfl, hspelled, .inr ⟨joint, p, used, rfl, ?_⟩⟩
      have hindex : d₂.index = c.index + widths front + 1 := by
        rw [htakesBar.2, htakes.2]
        simp
      rw [← hindex]
      exact hspelledRest
  · obtain ⟨rfl, rfl⟩ := Prod.mk.inj (Except.ok.inj h)
    refine ⟨front, htakes, ?_⟩
    rw [Element.SetSpelled]
    exact ⟨hnegatable, front, [], (List.append_nil _).symm, hspelled, .inl ⟨rfl, rfl⟩⟩
termination_by 5 * c.size + 2
decreasing_by all_goals omega

theorem takes_setElement (c : Cursor) {e : Element} {d : c.Shorter}
    (h : c.setElement = .ok (e, d)) :
    ∃ used, c.Takes used d.1 ∧ e.Spelled c.index used ∧ isNegatable e = true := by
  rw [setElement] at h
  obtain ⟨⟨element, d₁⟩, helement, h⟩ := ok_of_bind h
  dsimp only at h
  split at h
  · next hnegatable =>
      obtain ⟨rfl, rfl⟩ := Prod.mk.inj (Except.ok.inj h)
      obtain ⟨used, htakes, hspelled, -, -⟩ := takes_atom c helement
      exact ⟨used, htakes, hspelled, hnegatable⟩
  · cases h
termination_by 5 * c.size + 1
decreasing_by omega
end

end Cursor

end GrammarCompiler
