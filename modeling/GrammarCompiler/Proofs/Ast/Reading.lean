import GrammarCompiler.Proofs.Ast.Spelled

/-!
# What readers take

A reader that succeeds has taken some trees from the front (`Cursor.Takes`), and what it gives
back is spelled by them.
-/

namespace GrammarCompiler

open TokenTree (leaf group widths)

/-- If two steps succeed one after the other, the first does. -/
theorem ok_of_toOption {ε α : Type} {x : Except ε α} {a : α} (h : x.toOption = some a) :
    x = .ok a := by
  cases x with
  | error => cases h
  | ok => exact congrArg _ (Option.some.inj h)

theorem ok_of_bind {ε α β : Type} {x : Except ε α} {f : α → Except ε β} {b : β}
    (h : (x >>= f) = .ok b) : ∃ a, x = .ok a ∧ f a = .ok b := by
  cases x with
  | error e => cases h
  | ok a => exact ⟨a, rfl, h⟩

theorem bind_of_ok {ε α β : Type} {x : Except ε α} {f : α → Except ε β} {a : α} {b : β}
    (h : x = .ok a) (hf : f a = .ok b) : (x >>= f) = .ok b := by
  subst h
  exact hf

namespace Cursor

/-- A cursor has been moved behind some trees. -/
def Takes (c : Cursor) (used : List TokenTree) (d : Cursor) : Prop :=
  c.trees = used ++ d.trees ∧ d.index = c.index + widths used

theorem Takes.refl (c : Cursor) : c.Takes [] c := ⟨rfl, by simp⟩

theorem Takes.trans {c d e : Cursor} {used used' : List TokenTree} (h : c.Takes used d)
    (h' : d.Takes used' e) : c.Takes (used ++ used') e := by
  refine ⟨?_, ?_⟩
  · rw [h.1, h'.1, List.append_assoc]
  · rw [h'.2, h.2, TokenTree.widths_append, Nat.add_assoc]

theorem takes_behind {c : Cursor} {t : TokenTree} {rest : List TokenTree} {width : Nat}
    (h : c.trees = t :: rest) (hwidth : width = t.width) : c.Takes [t] (c.behind rest width) :=
  ⟨h, by simp [behind, hwidth]⟩

/-! ## Leaves -/

theorem takes_ident {c : Cursor} {text : String} {index : Nat} {d : c.Shorter}
    (h : c.ident = .ok ((text, index), d)) :
    index = c.index ∧ ∃ p, c.Takes [leaf (.ident text) p] d.1 := by
  unfold ident at h
  split at h
  · next t p rest htrees =>
      simp only [Except.ok.injEq, Prod.mk.injEq] at h
      obtain ⟨⟨rfl, rfl⟩, rfl⟩ := h
      exact ⟨rfl, p, takes_behind htrees (by simp)⟩
  · cases h

theorem takes_punct {c : Cursor} {char : Char} {index : Nat} {d : c.Shorter}
    (h : c.punct char = .ok (index, d)) :
    index = c.index ∧ ∃ joint p, c.Takes [leaf (.punct char joint) p] d.1 := by
  unfold punct at h
  split at h
  · next d joint p rest htrees =>
      split at h
      · next heq =>
          simp only [Except.ok.injEq, Prod.mk.injEq] at h
          obtain ⟨rfl, rfl⟩ := h
          exact ⟨rfl, joint, p, heq ▸ takes_behind htrees (by simp)⟩
      · cases h
  · cases h

theorem takes_punct? {c : Cursor} {char : Char} {index : Nat} {d : c.Shorter}
    (h : c.punct? char = some (index, d)) :
    index = c.index ∧ ∃ joint p, c.Takes [leaf (.punct char joint) p] d.1 := by
  unfold punct? at h
  refine takes_punct (d := d) ?_
  cases hpunct : c.punct char with
  | error e =>
      rw [hpunct] at h
      cases h
  | ok r =>
      rw [hpunct] at h
      rw [Option.some.inj h]

theorem takes_pair? {c : Cursor} {first second : Char} {index : Nat} {d : c.Shorter}
    (h : c.pair? first second = some (index, d)) :
    index = c.index + 1 ∧ ∃ joint p q,
      c.Takes [leaf (.punct first true) p, leaf (.punct second joint) q] d.1 := by
  unfold pair? at h
  split at h
  · next hat =>
      obtain ⟨⟨_, e, he⟩, hfirst, h⟩ := Option.bind_eq_some_iff.mp h
      obtain ⟨⟨_, f, hf⟩, hsecond, h⟩ := Option.bind_eq_some_iff.mp h
      obtain ⟨-, joint, p, htakes⟩ := takes_punct? hfirst
      obtain ⟨rfl, joint', q, htakes'⟩ := takes_punct? hsecond
      simp only [Option.some.injEq, Prod.mk.injEq] at h
      obtain ⟨rfl, rfl⟩ := h
      have hjoint : joint = true := by
        unfold atPunct at hat
        rw [String.toList_ofList, htakes.1] at hat
        simp only [List.cons_append, List.nil_append, spells, Bool.and_eq_true] at hat
        exact hat.1.2
      subst hjoint
      exact ⟨by rw [htakes.2]; simp, joint', p, q, htakes.trans htakes'⟩
  · cases h

theorem takes_literal {c : Cursor} {token : LiteralToken} {d : c.Shorter}
    (h : c.literal = .ok (token, d)) :
    token.index = c.index ∧ ∃ used, c.Takes used d.1 ∧
      ValueSpelled (token.value.getD token.text) used ∧
      (∀ value, token.value = some value →
        Literal.value? token.text = some value ∧ ∃ p, used = [leaf (.literal token.text) p]) := by
  unfold literal at h
  split at h
  · next text p rest htrees =>
      simp only [Except.ok.injEq, Prod.mk.injEq] at h
      obtain ⟨rfl, rfl⟩ := h
      exact ⟨rfl, _, takes_behind htrees (by simp), .literal text p, fun v hv => ⟨hv, p, rfl⟩⟩
  · next text p rest htrees =>
      split at h
      · simp only [Except.ok.injEq, Prod.mk.injEq] at h
        obtain ⟨rfl, rfl⟩ := h
        exact ⟨rfl, _, takes_behind htrees (by simp), .word text p, fun v hv => by cases hv⟩
      · cases h
  · next joint p text q rest htrees =>
      split at h
      · next hnumber =>
        simp only [Except.ok.injEq, Prod.mk.injEq] at h
        obtain ⟨rfl, rfl⟩ := h
        exact ⟨rfl, [_, _], ⟨htrees, by simp [behind]⟩, .negative joint p q hnumber,
          fun v hv => by cases hv⟩
      · cases h
  · cases h

/-! ## Groups -/

theorem takes_opaqueGroup {c : Cursor} {delimiter : Delimiter} {what : Expectation} {index : Nat}
    {text : String} {d : c.Shorter} (h : c.opaqueGroup delimiter what = .ok ((index, text), d))
    (hdelimiter : delimiter ≠ .parenthesis) :
    index = c.index ∧ ∃ opened closed body, text = TokenTree.print body ∧
      c.Takes [group delimiter opened closed body] d.1 := by
  unfold opaqueGroup at h
  split at h
  · next delim opened closed body rest htrees =>
      split at h
      · next heq =>
          simp only [Except.ok.injEq, Prod.mk.injEq] at h
          obtain ⟨⟨rfl, rfl⟩, rfl⟩ := h
          subst heq
          refine ⟨rfl, opened, closed, body, rfl, takes_behind htrees ?_⟩
          cases delim with
          | parenthesis => exact absurd rfl hdelimiter
          | bracket => simp
          | brace => simp
      · cases h
  · cases h

theorem takes_arguments {c : Cursor} {code : Snippet} {d : c.Shorter}
    (h : c.arguments = .ok (code, d)) :
    code.extent = .single c.index ∧ ∃ used, c.Takes used d.1 ∧ widths used = 1 ∧
      ArgumentsSpelled (some code) c.index used := by
  unfold arguments at h
  obtain ⟨⟨⟨index, text⟩, e⟩, hgroup, h⟩ := ok_of_bind h
  obtain ⟨rfl, opened, closed, body, rfl, htakes⟩ := takes_opaqueGroup hgroup (by decide)
  simp only [Except.ok.injEq, Prod.mk.injEq] at h
  obtain ⟨rfl, rfl⟩ := h
  exact ⟨rfl, _, htakes, by simp, .some c.index opened closed body⟩

/-! ## Options -/

theorem takes_optionValue {c : Cursor} {value : String} {d : c.Shorter}
    (h : c.optionValue = .ok (value, d)) :
    ∃ used, c.Takes used d.1 ∧ ValueSpelled value used := by
  unfold optionValue at h
  split at h
  · obtain ⟨⟨token, e⟩, hliteral, h⟩ := ok_of_bind h
    simp only [Except.ok.injEq, Prod.mk.injEq] at h
    obtain ⟨rfl, rfl⟩ := h
    obtain ⟨-, used, htakes, hvalue, -⟩ := takes_literal hliteral
    exact ⟨used, htakes, hvalue⟩
  · obtain ⟨⟨⟨text, index⟩, e⟩, hident, h⟩ := ok_of_bind h
    simp only [Except.ok.injEq, Prod.mk.injEq] at h
    obtain ⟨rfl, rfl⟩ := h
    obtain ⟨-, p, htakes⟩ := takes_ident hident
    exact ⟨_, htakes, .word text p⟩

/-- Options are spelled up to their closing bracket, the last token. -/
theorem takes_optionEntries (c : Cursor) {entries : List (String × String)} {stop : Nat}
    {d : c.Shorter} (h : c.optionEntries = .ok ((entries, stop), d)) :
    ∃ used, c.Takes used d.1 ∧ EntriesSpelled entries used ∧ stop + 1 = d.1.index := by
  rw [optionEntries] at h
  obtain ⟨⟨⟨key, index⟩, d₁, hd₁⟩, hkey, h⟩ := ok_of_bind h
  obtain ⟨⟨value, e, he⟩, hvalue, h⟩ := ok_of_bind h
  obtain ⟨-, p, htakesKey⟩ := takes_ident hkey
  have hassignment : ∃ used, d₁.Takes used e ∧ AssignmentSpelled value used := by
    split at hvalue
    · obtain ⟨rfl, heq⟩ := Prod.mk.inj (Except.ok.inj hvalue)
      obtain rfl := Subtype.mk.inj heq
      exact ⟨[], .refl _, .nothing⟩
    · next d₂ hd₂ hsign =>
        obtain ⟨⟨value', e', he'⟩, hread, hvalue⟩ := ok_of_bind hvalue
        obtain ⟨rfl, heq⟩ := Prod.mk.inj (Except.ok.inj hvalue)
        obtain rfl := Subtype.mk.inj heq
        obtain ⟨-, joint, q, htakesSign⟩ := takes_punct? hsign
        obtain ⟨used, htakes, hspelled⟩ := takes_optionValue hread
        exact ⟨_, htakesSign.trans htakes, .value joint q hspelled⟩
  obtain ⟨assignment, htakesValue, hassignment⟩ := hassignment
  dsimp only at h
  split at h
  · next f hf hcomma =>
      obtain ⟨⟨⟨entries', stop'⟩, g, hg⟩, hrest, h⟩ := ok_of_bind h
      obtain ⟨hentries, heq⟩ := Prod.mk.inj (Except.ok.inj h)
      obtain ⟨rfl, rfl⟩ := Prod.mk.inj hentries
      subst heq
      obtain ⟨-, joint, q, htakesComma⟩ := takes_punct? hcomma
      obtain ⟨used, htakes, hspelled, hstop⟩ := takes_optionEntries f hrest
      refine ⟨_, htakesKey.trans (htakesValue.trans (htakesComma.trans htakes)), ?_, hstop⟩
      cases entries' with
      | nil => exact absurd hspelled id
      | cons entry entries' => exact ⟨assignment, joint, p, q, used, rfl, hassignment, hspelled⟩
  · obtain ⟨⟨stop', f, hf⟩, hclose, h⟩ := ok_of_bind h
    obtain ⟨hentries, heq⟩ := Prod.mk.inj (Except.ok.inj h)
    obtain ⟨rfl, rfl⟩ := Prod.mk.inj hentries
    subst heq
    obtain ⟨rfl, joint, q, htakesClose⟩ := takes_punct hclose
    refine ⟨_, htakesKey.trans (htakesValue.trans htakesClose),
      ⟨assignment, joint, p, q, rfl, hassignment⟩, ?_⟩
    rw [htakesClose.2]
    simp
termination_by c.size
decreasing_by omega

theorem takes_options {c : Cursor} {options : Options} {d : c.Rest}
    (h : c.options = .ok (options, d)) :
    ∃ used, c.Takes used d.1 ∧ options.Spelled c.index used := by
  unfold Cursor.options at h
  split at h
  · obtain ⟨rfl, rfl⟩ := Prod.mk.inj (Except.ok.inj h)
    exact ⟨[], .refl _, .none _⟩
  · next start d₁ hd₁ hopen =>
      obtain ⟨⟨⟨entries, stop⟩, e, he⟩, hentries, h⟩ := ok_of_bind h
      obtain ⟨rfl, rfl⟩ := Prod.mk.inj (Except.ok.inj h)
      obtain ⟨rfl, joint, p, htakesOpen⟩ := takes_punct? hopen
      obtain ⟨used, htakes, hspelled, hstop⟩ := takes_optionEntries _ hentries
      have htakes := htakesOpen.trans htakes
      refine ⟨_, htakes, ?_⟩
      have hextent : (⟨c.index, stop⟩ : Extent) =
          .across c.index ([leaf (.punct '<' joint) p] ++ used) := by
        have := htakes.2
        unfold Extent.across
        congr 1
        omega
      rw [hextent]
      exact .some c.index joint p hspelled

/-- The last token of an element is that of its options, if it has any. -/
theorem stopOf_spelled {options : Options} {i : Nat} {ts : List TokenTree}
    (h : options.Spelled i ts) {stop : Nat} (hstop : stop + 1 = i) :
    stopOf options stop = i + widths ts - 1 := by
  cases h with
  | none => simp [stopOf, Options.none, ← hstop]
  | some => rfl

/-! ## Symbols -/

theorem takes_quotation {c : Cursor} {literal : Quotation} {d : c.Shorter}
    (h : c.quotation = .ok (literal, d)) :
    literal.options = .none ∧ literal.extent = .single c.index ∧
      ∃ t, c.Takes [t] d.1 ∧ t.width = 1 ∧ QuotationSpelled literal t := by
  unfold quotation at h
  obtain ⟨⟨token, e⟩, hliteral, h⟩ := ok_of_bind h
  dsimp only at h
  split at h
  · cases h
  · next value hvalue =>
      split at h
      · cases h
      · next hempty =>
          obtain ⟨rfl, rfl⟩ := Prod.mk.inj (Except.ok.inj h)
          obtain ⟨hindex, used, htakes, -, hused⟩ := takes_literal hliteral
          obtain ⟨hread, p, rfl⟩ := hused value hvalue
          exact ⟨rfl, by rw [hindex], _, htakes, by simp, hread, by simpa using hempty, p, rfl⟩

theorem takes_quotationOrRange {c : Cursor} {e : Element} {d : c.Shorter}
    (h : c.quotationOrRange = .ok (e, d)) :
    e.isBare = true ∧ e.endsWithDot = false ∧ ∃ used, c.Takes used d.1 ∧ e.Spelled c.index used := by
  unfold quotationOrRange at h
  obtain ⟨⟨first, d₁, hd₁⟩, hfirst, h⟩ := ok_of_bind h
  obtain ⟨hoptions, hextent, t, htakes, hwidth, hspelled⟩ := takes_quotation hfirst
  dsimp only at h
  split at h
  · next d₂ hd₂ hdots =>
      obtain ⟨⟨last, f, hf⟩, hlast, h⟩ := ok_of_bind h
      obtain ⟨rfl, rfl⟩ := Prod.mk.inj (Except.ok.inj h)
      obtain ⟨-, joint, p, q, htakesDots⟩ := takes_pair? hdots
      obtain ⟨hoptions', hextent', u, htakes', hwidth', hspelled'⟩ := takes_quotation hlast
      have hall := htakes.trans (htakesDots.trans htakes')
      have hindex : d₂.index = c.index + 3 := by
        rw [htakesDots.2, htakes.2]
        simp [hwidth]
      rw [hindex] at hextent'
      refine ⟨rfl, rfl, _, hall, ?_⟩
      rw [Element.Spelled]
      refine ⟨?_, hoptions, hextent, hoptions', hextent', t, u, joint, p, q, rfl, hspelled,
        hspelled'⟩
      simp [hextent, hextent', Extent.single, Extent.across, hwidth, hwidth']
  · obtain ⟨⟨options, f, hf⟩, hoptions, h⟩ := ok_of_bind h
    obtain ⟨rfl, rfl⟩ := Prod.mk.inj (Except.ok.inj h)
    obtain ⟨used, htakes', hspelled'⟩ := takes_options hoptions
    have hindex : d₁.index = c.index + 1 := by
      rw [htakes.2]
      simp [hwidth]
    rw [hindex] at hspelled'
    refine ⟨rfl, rfl, _, htakes.trans htakes', ?_⟩
    rw [Element.Spelled]
    refine ⟨?_, t, used, rfl, hspelled, hspelled'⟩
    rw [stopOf_spelled hspelled' (by rw [hextent]; rfl), hextent]
    simp [Extent.single, Extent.across, hwidth, Nat.add_assoc]

/-- Options behind something that ends right before them. -/
theorem takes_options_behind {c d : Cursor} {front : List TokenTree} {options : Options}
    {e : d.Rest} (hfront : c.Takes front d) (hne : front ≠ [])
    (h : d.options = .ok (options, e)) :
    ∃ rest, c.Takes (front ++ rest) e.1 ∧ options.Spelled (c.index + widths front) rest ∧
      (⟨c.index, stopOf options (c.index + widths front - 1)⟩ : Extent) =
        .across c.index (front ++ rest) := by
  obtain ⟨used, htakes, hspelled⟩ := takes_options h
  rw [hfront.2] at hspelled
  refine ⟨used, hfront.trans htakes, hspelled, ?_⟩
  have hpos : 0 < widths front := by
    cases front with
    | nil => exact absurd rfl hne
    | cons t ts =>
        have := t.width_pos
        simp only [TokenTree.widths_cons]
        omega
  rw [stopOf_spelled hspelled (by omega)]
  simp [Extent.across, Nat.add_assoc]

/-- A word that is no literal does not begin one. -/
theorem isTruth_of_atLiteral {c : Cursor} {name : String} {p : Text.Position}
    {rest : List TokenTree} (h : c.atLiteral = false)
    (htrees : c.trees = leaf (.ident name) p :: rest) : isTruth name = false := by
  unfold atLiteral at h
  rw [htrees] at h
  exact h

theorem takes_reference {c : Cursor} {e : Element} {d : c.Shorter} (hliteral : c.atLiteral = false)
    (h : c.reference = .ok (e, d)) :
    e.isBare = true ∧ e.endsWithDot = false ∧ ∃ used, c.Takes used d.1 ∧ e.Spelled c.index used := by
  unfold reference at h
  obtain ⟨⟨⟨name, index⟩, d₁, hd₁⟩, hname, h⟩ := ok_of_bind h
  obtain ⟨rfl, p, htakes⟩ := takes_ident hname
  have htruth := isTruth_of_atLiteral hliteral htakes.1
  dsimp only at h
  split at h
  · next htoken =>
      obtain ⟨⟨options, f, hf⟩, hoptions, h⟩ := ok_of_bind h
      obtain ⟨rfl, rfl⟩ := Prod.mk.inj (Except.ok.inj h)
      obtain ⟨rest, htakes', hspelled, hextent⟩ :=
        takes_options_behind htakes (List.cons_ne_nil _ _) hoptions
      refine ⟨rfl, rfl, _, htakes', ?_⟩
      rw [Element.Spelled]
      exact ⟨htoken, by simpa using hextent, p, rest, rfl, by simpa using hspelled⟩
  · next htoken =>
      have htoken : isTokenName name = false := by simpa using htoken
      split at h
      · obtain ⟨⟨args, d₂, hd₂⟩, hargs, h⟩ := ok_of_bind h
        obtain ⟨⟨options, f, hf⟩, hoptions, h⟩ := ok_of_bind h
        obtain ⟨rfl, rfl⟩ := Prod.mk.inj (Except.ok.inj h)
        obtain ⟨hargsExtent, used, htakesArgs, hwidth, hargsSpelled⟩ := takes_arguments hargs
        have hindex : d₁.index = c.index + 1 := by
          rw [htakes.2]
          simp
        rw [hindex] at hargsExtent hargsSpelled
        obtain ⟨rest, htakes', hspelled, hextent⟩ :=
          takes_options_behind (htakes.trans htakesArgs) (List.cons_ne_nil _ _) hoptions
        refine ⟨rfl, rfl, _, htakes', ?_⟩
        rw [Element.Spelled]
        refine ⟨htoken, ?_, htruth, p, used, rest, ?_, hargsSpelled, ?_⟩
        · rw [← hextent]
          simp [hargsExtent, Extent.single, hwidth]
        · simp
        · rw [TokenTree.widths_append] at hspelled
          simpa [Nat.add_assoc] using hspelled
      · obtain ⟨⟨options, f, hf⟩, hoptions, h⟩ := ok_of_bind h
        obtain ⟨rfl, rfl⟩ := Prod.mk.inj (Except.ok.inj h)
        obtain ⟨rest, htakes', hspelled, hextent⟩ :=
          takes_options_behind htakes (List.cons_ne_nil _ _) hoptions
        refine ⟨rfl, rfl, _, htakes', ?_⟩
        rw [Element.Spelled]
        exact ⟨htoken, by simpa using hextent, htruth, p, [], rest, rfl, .none _,
          by simpa using hspelled⟩

theorem takes_embedded {c : Cursor} {e : Element} {d : c.Shorter}
    (h : c.embedded = .ok (e, d)) :
    e.isBare = true ∧ e.endsWithDot = false ∧ ∃ used, c.Takes used d.1 ∧ e.Spelled c.index used := by
  unfold embedded at h
  obtain ⟨⟨⟨index, text⟩, d₁, hd₁⟩, hgroup, h⟩ := ok_of_bind h
  obtain ⟨rfl, opened, closed, body, rfl, htakes⟩ := takes_opaqueGroup hgroup (by decide)
  dsimp only at h
  split at h
  · next mark d₂ hd₂ hmark =>
      obtain ⟨⟨options, f, hf⟩, hoptions, h⟩ := ok_of_bind h
      obtain ⟨rfl, rfl⟩ := Prod.mk.inj (Except.ok.inj h)
      obtain ⟨rfl, joint, p, htakesMark⟩ := takes_punct? hmark
      obtain ⟨rest, htakes', hspelled, hextent⟩ :=
        takes_options_behind (htakes.trans htakesMark) (List.cons_ne_nil _ _) hoptions
      refine ⟨rfl, rfl, _, htakes', ?_⟩
      rw [Element.Spelled]
      refine ⟨?_, opened, closed, body, joint, p, rest, rfl, rfl, by simpa using hspelled⟩
      rw [← hextent, htakes.2]
      simp
  · obtain ⟨rfl, rfl⟩ := Prod.mk.inj (Except.ok.inj h)
    refine ⟨rfl, rfl, _, htakes, ?_⟩
    rw [Element.Spelled]
    exact ⟨rfl, rfl, opened, closed, body, rfl, rfl⟩

theorem takes_wildcard {c : Cursor} {e : Element} {d : c.Shorter}
    (h : c.wildcard = .ok (e, d)) :
    e.isBare = true ∧ ∃ used, c.Takes used d.1 ∧ e.Spelled c.index used := by
  unfold wildcard at h
  obtain ⟨⟨index, d₁, hd₁⟩, hdot, h⟩ := ok_of_bind h
  obtain ⟨rfl, joint, p, htakes⟩ := takes_punct hdot
  obtain ⟨⟨options, f, hf⟩, hoptions, h⟩ := ok_of_bind h
  obtain ⟨rfl, rfl⟩ := Prod.mk.inj (Except.ok.inj h)
  obtain ⟨rest, htakes', hspelled, hextent⟩ :=
    takes_options_behind htakes (List.cons_ne_nil _ _) hoptions
  refine ⟨rfl, _, htakes', ?_⟩
  rw [Element.Spelled]
  exact ⟨by simpa using hextent, joint, p, rest, rfl, by simpa using hspelled⟩

/-! ## Suffixes and labels -/

theorem takes_suffixed {c d : Cursor} {front : List TokenTree} {element e : Element} {f : d.Rest}
    (hfront : c.Takes front d) (hspelled : element.Spelled c.index front)
    (hplain : element.isUnsuffixed = true) (hextent : element.extent = .across c.index front)
    (haction : element.isAction = true → d.punct? '?' = none)
    (h : d.suffixed element = .ok (e, f)) :
    ∃ used, c.Takes used f.1 ∧ e.Spelled c.index used ∧ e.extent = .across c.index used ∧
      e.isCommand = false := by
  -- the operator, whichever of the three it is
  have hfound : ∀ {suffix : Suffix} {index : Nat} {g : d.Shorter},
      d.punct? suffix.char = some (index, g) →
      (match g.1.punct? '?' with
        | some (mark, k) => Except.ok (Element.suffixed suffix false element
            ⟨element.extent.start, mark⟩, k.1)
        | none => Except.ok (Element.suffixed suffix true element
            ⟨element.extent.start, index⟩, g.1) : Except SyntaxError (Element × Cursor)) =
        .ok (e, f.1) →
      ∃ used, c.Takes used f.1 ∧ e.Spelled c.index used ∧ e.extent = .across c.index used ∧
        e.isCommand = false := by
    intro suffix index g hsign h
    have hoptional : suffix = .optional → element.isAction = false := by
      rintro rfl
      rw [Bool.eq_false_iff]
      intro hcode
      exact nomatch (haction hcode).symm.trans hsign
    obtain ⟨rfl, joint, p, htakes⟩ := takes_punct? hsign
    split at h
    · next mark k hmark =>
        obtain ⟨rfl, hf⟩ := Prod.mk.inj (Except.ok.inj h)
        obtain ⟨rfl, joint', q, htakes'⟩ := takes_punct? hmark
        have hall := hfront.trans (htakes.trans htakes')
        rw [hf] at hall
        have hacross : (⟨element.extent.start, g.1.index⟩ : Extent) = .across c.index
            (front ++ [leaf (.punct suffix.char joint) p, leaf (.punct '?' joint') q]) := by
          rw [hextent, htakes.2, hfront.2]
          simp [Extent.across, Nat.add_assoc]
        refine ⟨_, hall, ?_, hacross, rfl⟩
        rw [Element.Spelled]
        exact ⟨hacross, hplain, front, _, rfl, hspelled,
          .reluctant suffix joint joint' p q, hoptional⟩
    · obtain ⟨rfl, hf⟩ := Prod.mk.inj (Except.ok.inj h)
      have hall := hfront.trans htakes
      rw [hf] at hall
      have hacross : (⟨element.extent.start, d.index⟩ : Extent) = .across c.index
          (front ++ [leaf (.punct suffix.char joint) p]) := by
        rw [hextent, hfront.2]
        simp [Extent.across]
      refine ⟨_, hall, ?_, hacross, rfl⟩
      rw [Element.Spelled]
      exact ⟨hacross, hplain, front, _, rfl, hspelled, .greedy suffix joint p, hoptional⟩
  have hcommand : element.isCommand = false := by
    cases element with
    | command => cases hplain
    | _ => rfl
  unfold suffixed at h
  dsimp only at h
  split at h
  · obtain ⟨rfl, rfl⟩ := Prod.mk.inj (Except.ok.inj h)
    exact ⟨front, hfront, hspelled, hextent, hcommand⟩
  · next suffix index g hg hsign =>
      have hsign : d.punct? suffix.char = some (index, ⟨g, hg⟩) := by
        split at hsign
        · obtain ⟨⟨_, _⟩, hr, heq⟩ := Option.map_eq_some_iff.mp hsign
          cases heq
          exact hr
        · split at hsign
          · obtain ⟨⟨_, _⟩, hr, heq⟩ := Option.map_eq_some_iff.mp hsign
            cases heq
            exact hr
          · split at hsign
            · obtain ⟨⟨_, _⟩, hr, heq⟩ := Option.map_eq_some_iff.mp hsign
              cases heq
              exact hr
            · cases hsign
      refine hfound hsign ?_
      split at h
      · next hmark =>
          obtain ⟨rfl, rfl⟩ := Prod.mk.inj (Except.ok.inj h)
          rw [hmark]
      · next hmark =>
          obtain ⟨rfl, rfl⟩ := Prod.mk.inj (Except.ok.inj h)
          rw [hmark]

theorem takes_elementLabel {c : Cursor} {label : Option ElementLabel} {d : c.Rest}
    (h : c.elementLabel = .ok (label, d)) :
    ∃ used, c.Takes used d.1 ∧
      match label with
      | none => used = []
      | some label => label.index = c.index ∧ ∃ p sign,
          used = leaf (.ident label.name) p :: sign ∧ SignSpelled label.isList sign := by
  unfold elementLabel at h
  split at h
  · obtain ⟨⟨⟨name, index⟩, d₁, hd₁⟩, hname, h⟩ := ok_of_bind h
    obtain ⟨rfl, p, htakes⟩ := takes_ident hname
    dsimp only at h
    split at h
    · next d₂ hd₂ hsign =>
        obtain ⟨rfl, rfl⟩ := Prod.mk.inj (Except.ok.inj h)
        obtain ⟨-, joint, q, r, htakes'⟩ := takes_pair? hsign
        exact ⟨_, htakes.trans htakes', rfl, p, _, rfl, .list joint q r⟩
    · obtain ⟨⟨sign, d₂, hd₂⟩, hsign, h⟩ := ok_of_bind h
      obtain ⟨rfl, rfl⟩ := Prod.mk.inj (Except.ok.inj h)
      obtain ⟨-, joint, q, htakes'⟩ := takes_punct hsign
      exact ⟨_, htakes.trans htakes', rfl, p, _, rfl, .one joint q⟩
  · obtain ⟨rfl, rfl⟩ := Prod.mk.inj (Except.ok.inj h)
    exact ⟨[], .refl _, rfl⟩

theorem takes_altLabel {c : Cursor} {label : Option (AltLabel × Nat)} {d : c.Rest}
    (h : c.altLabel = .ok (label, d)) :
    ∃ used, c.Takes used d.1 ∧ AltLabelSpelled (label.map (·.1)) c.index used ∧
      (∀ l ∈ label, l.2 = c.index + 1 ∧ l.1.poundToken = c.index ∧ widths used = 2) ∧
      (label = none → used = []) := by
  unfold altLabel at h
  split at h
  · obtain ⟨rfl, rfl⟩ := Prod.mk.inj (Except.ok.inj h)
    exact ⟨[], .refl _, .none _, (fun _ h => by cases h), fun _ => rfl⟩
  · next pound d₁ hd₁ hpound =>
      obtain ⟨⟨⟨name, index⟩, e, he⟩, hname, h⟩ := ok_of_bind h
      obtain ⟨rfl, rfl⟩ := Prod.mk.inj (Except.ok.inj h)
      obtain ⟨rfl, joint, p, htakes⟩ := takes_punct? hpound
      obtain ⟨rfl, q, htakes'⟩ := takes_ident hname
      refine ⟨_, htakes.trans htakes', .some name c.index joint p q, ?_, fun h => by cases h⟩
      intro l hl
      obtain rfl := Option.some.inj hl
      exact ⟨by rw [htakes.2]; simp, rfl, by simp⟩

/-! ## Commands -/

theorem takes_commandArg {c : Cursor} {arg : Option String} {close : Option Nat} {d : c.Rest}
    (h : c.commandArg = .ok ((arg, close), d)) :
    ∃ used, c.Takes used d.1 ∧ CommandArgSpelled arg used ∧ (close = none → used = []) ∧
      ∀ stop ∈ close, stop + 1 = d.1.index := by
  unfold commandArg at h
  split at h
  · next opened closed body rest htrees =>
      obtain ⟨⟨⟨name, index⟩, e, he⟩, hname, h⟩ := ok_of_bind h
      obtain ⟨hpair, rfl⟩ := Prod.mk.inj (Except.ok.inj h)
      obtain ⟨rfl, rfl⟩ := Prod.mk.inj hpair
      obtain ⟨-, p, htakes⟩ := takes_ident hname
      obtain rfl : body = leaf (.ident name) p :: e.trees := htakes.1
      refine ⟨[_], ⟨htrees, by simp [behind]⟩, .some name opened closed p e.trees,
        fun hnone => absurd hnone (Option.some_ne_none _), fun stop hstop => ?_⟩
      obtain rfl := Option.some.inj hstop
      simp only [behind, TokenTree.width_parenthesis]
      omega
  · obtain ⟨hpair, rfl⟩ := Prod.mk.inj (Except.ok.inj h)
    obtain ⟨rfl, rfl⟩ := Prod.mk.inj hpair
    exact ⟨[], .refl _, .none, fun _ => rfl, fun stop hstop => absurd hstop (Option.not_mem_none stop)⟩

/-- A lexer command does not end with a dot. -/
theorem apart_command {mark rest : List TokenTree} {name : String} {arg : Option String}
    {p : Text.Position} (h : CommandArgSpelled arg rest) (us : List TokenTree) :
    Apart '.' (mark ++ leaf (.ident name) p :: rest) us := by
  intro joint q r hlast
  cases h <;> simp [List.getLast?_append] at hlast

/-- Lexer commands, each with what stands in front of it. -/
theorem takes_commands (c : Cursor) {es : List Element} {d : c.Shorter}
    (h : c.commands = .ok (es, d)) {i : Nat} {mark : List TokenTree}
    (hmark : CommandMarkSpelled mark) (hi : c.index = i + widths mark) :
    es ≠ [] ∧ ∃ used, c.Takes used d.1 ∧ Element.ListSpelled i (mark ++ used) es := by
  rw [commands] at h
  obtain ⟨⟨⟨name, index⟩, d₁, hd₁⟩, hname, h⟩ := ok_of_bind h
  obtain ⟨⟨⟨arg, close⟩, d₂, hd₂⟩, harg, h⟩ := ok_of_bind h
  obtain ⟨rfl, p, htakes⟩ := takes_ident hname
  obtain ⟨used, htakesArg, hspelled, hnone, hclose⟩ := takes_commandArg harg
  have hboth := htakes.trans htakesArg
  rw [List.singleton_append] at hboth
  have hindex : d₂.index = c.index + (1 + widths used) := by
    rw [hboth.2, TokenTree.widths_cons, TokenTree.width_leaf]
  have hfirst : Element.Spelled i (mark ++ leaf (.ident name) p :: used)
      (.command name arg ⟨c.index, close.getD c.index⟩) := by
    rw [Element.Spelled]
    refine ⟨mark, p, used, rfl, ?_, hmark, hspelled⟩
    rw [Extent.across, ← hi, TokenTree.widths_cons, TokenTree.width_leaf]
    cases close with
    | none =>
        rw [hnone rfl]
        simp
    | some stop =>
        have hstop : stop + 1 = d₂.index := hclose stop rfl
        rw [Option.getD_some]
        congr 1
        omega
  have hwidth : i + widths (mark ++ leaf (.ident name) p :: used) = d₂.index := by
    rw [TokenTree.widths_append, TokenTree.widths_cons, TokenTree.width_leaf]
    omega
  dsimp only at h
  split at h
  · next d₃ hd₃ hcomma =>
      obtain ⟨⟨rest, g, hg⟩, hrest, h⟩ := ok_of_bind h
      obtain ⟨rfl, rfl⟩ := Prod.mk.inj (Except.ok.inj h)
      obtain ⟨-, joint, q, htakesComma⟩ := takes_punct? hcomma
      obtain ⟨-, used', htakesRest, hcommands⟩ :=
        takes_commands d₃ hrest (.comma joint q) htakesComma.2
      refine ⟨List.cons_ne_nil _ _, _, hboth.trans (htakesComma.trans htakesRest), ?_⟩
      rw [Element.ListSpelled]
      exact ⟨_, _, by simp, hfirst, apart_command hspelled _, hwidth ▸ hcommands⟩
  · obtain ⟨rfl, rfl⟩ := Prod.mk.inj (Except.ok.inj h)
    refine ⟨List.cons_ne_nil _ _, _, hboth, ?_⟩
    rw [Element.ListSpelled]
    exact ⟨_, [], by simp, hfirst, apart_command hspelled _, by rw [Element.ListSpelled]⟩
termination_by c.size
decreasing_by omega

theorem takes_commandList {c : Cursor} {es : List Element} {d : c.Rest}
    (h : c.commandList = .ok (es, d)) :
    ∃ used, c.Takes used d.1 ∧ Element.ListSpelled c.index used es ∧
      ∀ joint p, used.head? ≠ some (leaf (.punct '.' joint) p) := by
  unfold commandList at h
  split at h
  · obtain ⟨rfl, rfl⟩ := Prod.mk.inj (Except.ok.inj h)
    exact ⟨[], .refl _, by rw [Element.ListSpelled], by simp⟩
  · next d₁ hd₁ harrow =>
      obtain ⟨⟨es', e, he⟩, hcommands, h⟩ := ok_of_bind h
      obtain ⟨rfl, rfl⟩ := Prod.mk.inj (Except.ok.inj h)
      obtain ⟨-, joint, p, q, htakes⟩ := takes_pair? harrow
      obtain ⟨-, used, htakes', hspelled⟩ :=
        takes_commands _ hcommands (.arrow joint p q) htakes.2
      exact ⟨_, htakes.trans htakes', hspelled, by simp⟩

end Cursor

end GrammarCompiler
