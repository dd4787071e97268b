import GrammarCompiler.Proofs.Recursion.Replayed
import GrammarCompiler.Proofs.Recursion.Settled
import GrammarCompiler.Proofs.Token.Slice

/-!
# The text of an alternative

What stands for an alternative in the new rule are the elements that remain of it (`Alt.remainder`):
an operator has lost the reference at its front, and the last operand may demand a precedence. Its
text is the tokens of these elements written out anew. A lexer command that it begins with has been cut
off from its arrow, so the text is that of a copy of what the elements are read back as
(`Alt.Stands.exists_inked`).
-/

namespace GrammarCompiler

open TokenTree (leaf group widths AllSound StandAt Firm)

/-! ## What remains of an alternative -/

/-- Whether an alternative begins with an operand. -/
def AltShape.isOperator : AltShape → Bool
  | .binary | .ternary | .suffix => true
  | .front | .other => false

/-- The precedence that an alternative demands of its last operand, if it ends with one. -/
def AltShape.demand (shape : AltShape) (assoc : Assoc) (precedence : Nat) : Option Nat :=
  match shape with
  | .binary | .ternary => some (assoc.nextPrecedence precedence)
  | .front => some precedence
  | .suffix | .other => none

namespace Alt

/-- An alternative without the operand at its front and without its label. -/
def kept (alt : Alt) (name : String) (shape : AltShape) : Alt :=
  (if shape.isOperator then (alt.withoutLeadingRef name (alt.label.map (·.name))).1
    else alt).withoutLabelTokens

/-- What stands for an alternative in the new rule. -/
def remainder (alt : Alt) (name : String) (shape : AltShape) (demand : Option Nat) : Alt :=
  match demand with
  | some precedence => (alt.kept name shape).withPrecedence name precedence
  | none => alt.kept name shape

end Alt

theorem AltAnalysis.text_ofAlt (table : TokenTable) (name : String) (count num : Nat) (alt : Alt)
    (shape : AltShape) (assoc : Assoc) :
    (AltAnalysis.ofAlt table name count num alt shape assoc).info.text =
      Text.trim
        ((alt.remainder name shape (shape.demand assoc (precedenceOf count num))).text table) := by
  cases shape <;> rfl

/-! ## Precedence -/

/-- The change that lets the last of some references demand a precedence. -/
def demanding (count : Nat) (name : String) (precedence : Nat) (seen : Nat) (element : Element) :
    Nat × Options :=
  match element with
  | .ruleRef r =>
    (seen + 1,
      if seen + 1 = count && r.name == name then
        r.options.set precedenceOption (toString precedence)
      else r.options)
  | other => (seen, other.ownOptions)

theorem marking_demanding (count : Nat) (name : String) (precedence : Nat) :
    Marking (demanding count name precedence) where
  extent seen e := by
    cases e with
    | ruleRef r =>
        unfold demanding
        dsimp only
        split <;> rfl
    | _ => rfl
  printable seen e h := by
    cases e with
    | ruleRef r =>
        unfold demanding
        dsimp only
        split
        · exact h.setEntry (by decide) (.literal (Literal.isBareLiteral_toString precedence))
        · exact h
    | _ => exact h
  other seen e h := by
    cases e with
    | ruleRef r => cases h
    | _ => rfl

/-- Options that are left as they are. -/
theorem marking_own : Marking fun (_ : Unit) (e : Element) => ((), e.ownOptions) :=
  ⟨fun _ _ => rfl, fun _ _ h => h, fun _ _ _ => rfl⟩

mutual
theorem Element.mapOptions_own : ∀ e : Element,
    (e.mapOptions (fun (_ : Unit) (e : Element) => ((), e.ownOptions)) ()).2 = e
  | .block alts options extent =>
      congrArg (Element.block · options extent) (Alt.mapListOptions_own alts)
  | .not operand extent => congrArg (Element.not · extent) (Element.mapOptions_own operand)
  | .set elements extent => congrArg (Element.set · extent) (Element.mapListOptions_own elements)
  | .suffixed suffix greedy element extent =>
      congrArg (Element.suffixed suffix greedy · extent) (Element.mapOptions_own element)
  | .labeled isList label token element extent =>
      congrArg (Element.labeled isList label token · extent) (Element.mapOptions_own element)
  | .ruleRef _ | .tokenRef .. | .quotation _ | .range .. | .wildcard .. | .action _ | .predicate _
  | .command .. | .epsilon _ => rfl

theorem Element.mapListOptions_own : ∀ es : List Element,
    (Element.mapListOptions (fun (_ : Unit) (e : Element) => ((), e.ownOptions)) () es).2 = es
  | [] => rfl
  | e :: es => congrArg₂ List.cons (Element.mapOptions_own e) (Element.mapListOptions_own es)

theorem Alt.mapOptions_own : ∀ a : Alt,
    (a.mapOptions (fun (_ : Unit) (e : Element) => ((), e.ownOptions)) ()).2 = a
  | ⟨elements, options, label, extent, info⟩ =>
      congrArg (Alt.mk · options label extent info) (Element.mapListOptions_own elements)

theorem Alt.mapListOptions_own : ∀ as : List Alt,
    (Alt.mapListOptions (fun (_ : Unit) (e : Element) => ((), e.ownOptions)) () as).2 = as
  | [] => rfl
  | a :: as => congrArg₂ List.cons (Alt.mapOptions_own a) (Alt.mapListOptions_own as)
end

/-! ## The text of elements -/

/-- Replayed tokens of elements are a text of its own, with a space in front. -/
theorem Replays.exists_inked {skips : Nat → Bool} {element? : Nat → Option Element}
    {left inner : List Token} {es : List Element}
    (h : Replays skips element? false inner (Element.ListCopied · es)) (hne : es ≠ [])
    (hleft : Adds skips element? false left "" false) (htexts : ∀ t ∈ left ++ inner, t.text ≠ "") :
    ∃ us, Inked false us
        (" " ++ Text.trim (Alt.replay skips element? .empty (left ++ inner)).text) false ∧
      Element.ListCopied us es := by
  obtain ⟨us, text, glue', hinked, hadds, hcopied⟩ := h
  obtain ⟨hus, hfirm, hsettled⟩ := hcopied.settled hne
  have htext : text ≠ "" := by
    obtain ⟨c, cs, hcs, -⟩ := hinked.exists_cons hus
    rintro rfl
    cases hcs
  have hall := hleft.append hadds
  rw [String.empty_append] at hall
  have hspace := hall.eq_space_append htexts htext
  rw [hspace] at hinked
  obtain ⟨-, htrim⟩ := hinked.trim_eq hus hfirm
  exact ⟨TokenTree.settled us, htrim.symm ▸ hinked.settled hus, hsettled⟩

/-- Whether elements are spelled from the token on that the first of them begins with. The arrow in
front of a lexer command is not part of the command. -/
def Element.CutSpelled (i : Nat) (ts : List TokenTree) : List Element → Prop
  | .command name arg _ :: es => ∃ p trees back, ts = leaf (.ident name) p :: (trees ++ back) ∧
      CommandArgCopied arg trees ∧ Element.ListSpelled (i + 1 + widths trees) back es
  | es => Element.ListSpelled i ts es

theorem Element.cutSpelled_cons {e : Element} (h : e.isCommand = false) (i : Nat)
    (ts : List TokenTree) (es : List Element) :
    Element.CutSpelled i ts (e :: es) = Element.ListSpelled i ts (e :: es) := by
  cases e with
  | command => cases h
  | _ => rfl

/-- Elements that are spelled are so from the beginning of the first one on, too. -/
theorem Element.ListSpelled.cut {e : Element} {es : List Element} {i : Nat} {ts : List TokenTree}
    (h : Element.ListSpelled i ts (e :: es)) (hproper : e.isProper = true) :
    ∃ lost body, ts = lost ++ body ∧ body ≠ [] ∧ e.extent.start = i + widths lost ∧
      Element.CutSpelled (i + widths lost) body (e :: es) := by
  cases hcommand : e.isCommand with
  | false =>
      have hspelled := h
      rw [Element.ListSpelled] at h
      obtain ⟨front, back, rfl, he, -⟩ := h
      refine ⟨[], _, rfl, List.append_ne_nil_of_left_ne_nil he.ne_nil back, ?_, ?_⟩
      · rw [he.extent_eq hcommand]
        rfl
      · rw [Element.cutSpelled_cons hcommand]
        exact hspelled
  | true =>
      cases e with
      | command name arg extent =>
          rw [Element.ListSpelled] at h
          obtain ⟨front, back, rfl, he, -, hes⟩ := h
          rw [Element.Spelled] at he
          obtain ⟨mark, p, trees, rfl, hextent, -, harg⟩ := he
          refine ⟨mark, leaf (.ident name) p :: (trees ++ back), by simp, nofun, ?_, p, trees, back, rfl,
            harg.copied hextent rfl hproper, ?_⟩
          · exact congrArg Extent.start hextent
          · rwa [TokenTree.widths_append, TokenTree.widths_cons, TokenTree.width_leaf, ← Nat.add_assoc,
              ← Nat.add_assoc] at hes
      | _ => cases hcommand

/-- What the argument of a lexer command is written as is a block. -/
theorem CommandArgCopied.listCopied {arg : Option String} {trees back : List TokenTree}
    {es : List Element} (h : CommandArgCopied arg trees) (hes : Element.ListCopied back es) :
    Element.ListCopied (trees ++ back) (Element.argument arg ++ es) := by
  cases h with
  | none => exact hes
  | some arg opened closed p =>
      have hname : Element.ListCopied [leaf (.ident arg) p] [.named arg] := .name .nil
      have hblock : Element.Copied [group .parenthesis opened closed [leaf (.ident arg) p]]
          (.block [.ofElements [.named arg]] (.ofEntries []) .nowhere) :=
        .block (.last (hname.alt nofun))
      exact .front rfl rfl hblock hes

/-- Elements that have lost the arrow in front are replayed as what they are read as without it. -/
theorem Element.CutSpelled.replays {σ : Type} {f : σ → Element → σ × Options} (hf : Marking f)
    (s : σ) {skips : Nat → Bool} {element? : Nat → Option Element} {es : List Element} {i : Nat}
    {ts : List TokenTree} {tokens : List Token} (h : Element.CutSpelled i ts es)
    (hproper : Element.allProper es = true) (hstanding : Standing (Element.listNodes es) i ts tokens)
    (hguide : Guide skips element? i (widths ts)
      (skippedIn (Element.listNodes (Element.mapListOptions f s es).2))
      (Element.listNodes (Element.mapListOptions f s es).2)) (glue : Bool) :
    Replays skips element? glue tokens
      (Element.ListCopied · (Element.signless (Element.allCopied (Element.mapListOptions f s es).2))) := by
  cases es with
  | nil => exact Element.ListSpelled.replays hf [] s h hproper hstanding hguide glue
  | cons e es =>
      cases hcommand : e.isCommand with
      | false =>
          rw [Element.mapListOptions_cons, Element.allCopied, Element.allRecast, Element.signless_cons
            (by rw [Element.isCommand_recast, Element.isCommand_mapOptions]; exact hcommand)]
          exact Element.ListSpelled.replays hf (e :: es) s
            (Element.cutSpelled_cons hcommand i ts es ▸ h) hproper hstanding hguide glue
      | true =>
          cases e with
          | command name arg extent =>
              obtain ⟨p, trees, back, rfl, harg, hes⟩ := h
              obtain ⟨-, -, hproper⟩ := Element.allProper_cons.mp hproper
              have hinside := Element.ListSpelled.inside hf.extent es
                (f s (.command name arg extent)).1 hes
              obtain ⟨first, behind, rfl, hfirst, hbehind⟩ :=
                (show Standing _ i ([leaf (.ident name) p] ++ (trees ++ back)) tokens
                  from hstanding).append
              obtain ⟨middle, rest, rfl, hmiddle, hrest⟩ := hbehind.append
              simp only [TokenTree.widths_append, TokenTree.widths_cons, TokenTree.width_leaf,
                TokenTree.widths_nil, Nat.add_zero] at hguide hmiddle hrest
              have hplain : ∀ j, i ≤ j → j < i + 1 + widths trees →
                  skips j = false ∧ element? j = none := fun j hj hj' =>
                hguide.plain (hinside.cons rfl) hj (by omega) (.inl hj')
              have hname := replays_word hfirst.sound.word.1 hfirst.numbered
                (hplain i (Nat.le_refl _) (by omega)) glue
              have htrees := replays_plain (harg.isPlain hmiddle.sound) hmiddle.numbered
                fun j hj hj' => hplain j (by omega) hj'
              have hothers := Element.ListSpelled.replays hf es (f s (.command name arg extent)).1 hes
                hproper (hrest.subset (List.subset_append_right ..))
                (hguide.inner rfl (by omega) (by omega))
              refine (hname.append fun glue => (htrees glue).append hothers).mono ?_
              rintro us ⟨_, _, rfl, rfl, _, back', rfl, rfl, hback⟩
              exact .name (harg.listCopied hback)
          | _ => cases hcommand

/-! ## Where the remainder stands -/

namespace Alt

/-- An alternative with a shape is not empty, and an operator has something behind its operand. -/
theorem exists_of_shape {alt : Alt} {name : String} {num : Nat} {shape : AltShape}
    (h : alt.shape name num = .ok shape) : alt.isEpsilon = false ∧
      (shape.isOperator = true → ∃ first second rest, alt.elements = first :: second :: rest ∧
        first.refersTo name = true) := by
  unfold Alt.shape at h
  split at h
  · cases h
  next hepsilon =>
  refine ⟨Bool.eq_false_iff.mpr hepsilon, fun hoperator => ?_⟩
  split at h
  · obtain rfl := Except.ok.inj h
    split at hoperator <;> cases hoperator
  next hbegins =>
  split at h
  · cases h
  split at h
  · cases h
  next hcounting =>
  have hbegins' : alt.beginsWith name = true := by simpa using hbegins
  unfold beginsWith at hbegins'
  unfold lastCounting at hcounting
  cases helements : alt.elements with
  | nil =>
      rw [helements] at hbegins'
      cases hbegins'
  | cons first rest =>
      rw [helements] at hbegins' hcounting
      cases rest with
      | nil =>
          rw [List.length_singleton] at hcounting
          omega
      | cons second rest => exact ⟨first, second, rest, rfl, hbegins'⟩

/-- An alternative without its label ends before it. -/
theorem withoutLabelTokens_eq {alt : Alt} {k : Nat} {back : List TokenTree}
    (hlabel : AltLabelSpelled alt.label k back) (hstart : alt.extent.start < k)
    (hstop : alt.extent.stop + 1 = k + widths back) :
    alt.withoutLabelTokens = { alt with extent := ⟨alt.extent.start, k - 1⟩ } := by
  obtain ⟨elements, options, label, ⟨start, stop⟩, info⟩ := alt
  unfold withoutLabelTokens
  cases hlabel with
  | none =>
      obtain rfl : stop = k - 1 := by
        rw [TokenTree.widths_nil] at hstop
        dsimp only at hstop
        omega
      rfl
  | some name k joint p q =>
      dsimp only at hstart ⊢
      rw [if_pos hstart]

end Alt

/-- Whether an alternative stands in a table. -/
structure Alt.Stands (table : TokenTable) (alt : Alt) (i : Nat) (ts : List TokenTree) : Prop where
  spelled : alt.Spelled i ts
  proper : alt.isProper = true
  standing : Standing alt.nodes i ts (table.slice i (i + widths ts))

theorem Standing.slice_append {table : TokenTable} {nodes : List Element} {i : Nat}
    {ts us : List TokenTree}
    (h : Standing nodes i (ts ++ us) (table.slice i (i + widths (ts ++ us)))) :
    Standing nodes i ts (table.slice i (i + widths ts)) ∧
      Standing nodes (i + widths ts) us
        (table.slice (i + widths ts) (i + widths ts + widths us)) := by
  obtain ⟨front, back, heq, hfront, hback⟩ := h.append
  rw [TokenTree.widths_append, ← Nat.add_assoc,
    table.slice_append (Nat.le_add_right i (widths ts)) (Nat.le_add_right _ _)] at heq
  have hlength := congrArg List.length heq
  rw [List.length_append, List.length_append, hfront.numbered.length_eq,
    hback.numbered.length_eq] at hlength
  have hle := table.length_slice_le i (i + widths ts)
  have hle' := table.length_slice_le (i + widths ts) (i + widths ts + widths us)
  obtain ⟨rfl, rfl⟩ := List.append_inj heq (by rw [hfront.numbered.length_eq]; omega)
  exact ⟨hfront, hback⟩

/-- Whether the elements of an alternative stand in a table as `body`, from `j` on; with `cut`, they
stand there from the token on that the first of them begins with. What else there is of its tokens
stands in front of them and belongs to its options. -/
structure Alt.Keeps (table : TokenTable) (cut : Bool) (kept : Alt) (j : Nat) (body : List TokenTree) :
    Prop where
  spelled : if cut then Element.CutSpelled j body kept.elements
    else Element.ListSpelled j body kept.elements
  ne_nil : kept.elements ≠ []
  written : kept.isEpsilon = false
  proper : Element.allProper kept.elements = true
  inner : Standing (Element.listNodes kept.elements) j body (table.slice j (j + widths body))
  tokens : kept.tokensIn table =
    table.slice kept.extent.start j ++ table.slice j (j + widths body)
  behind : ∀ x ∈ kept.options.extent.toList, x.stop < j
  front : ∃ ts, (ts = [] ∨ kept.options.Spelled kept.extent.start ts) ∧
    Standing [] kept.extent.start ts (table.slice kept.extent.start j)

/-- Nothing that is spelled is empty. -/
theorem Alt.isEpsilon_eq_false {alt : Alt} {i : Nat} {ts : List TokenTree} {first : Element}
    {rest : List Element} (helements : alt.elements = first :: rest)
    (h : Element.ListSpelled i ts alt.elements) : alt.isEpsilon = false := by
  rw [helements, Element.ListSpelled] at h
  obtain ⟨_, _, -, hfirst, -⟩ := h
  unfold isEpsilon
  rw [helements, List.all_cons]
  cases first with
  | epsilon =>
      rw [Element.Spelled] at hfirst
      exact hfirst.elim
  | _ => rfl

/-- An alternative whose first token is that of its first element. -/
theorem Alt.exists_keeps {table : TokenTable} {kept : Alt} {first : Element} {rest : List Element}
    {k : Nat} {body : List TokenTree} (helements : kept.elements = first :: rest)
    (hes : Element.ListSpelled k body kept.elements)
    (hproper : Element.allProper kept.elements = true)
    (hinner : Standing (Element.listNodes kept.elements) k body (table.slice k (k + widths body)))
    (hstart : kept.extent.start = first.extent.start) (hstop : kept.extent.stop + 1 = k + widths body)
    (hbehind : ∀ x ∈ kept.options.extent.toList, x.stop < k) :
    ∃ j body, kept.Keeps table true j body := by
  obtain ⟨lost, body, rfl, hne, hfirst, hcut⟩ :=
    (helements ▸ hes).cut (Element.allProper_cons.mp (helements ▸ hproper)).1
  obtain ⟨-, hinner⟩ := hinner.slice_append
  have hpos := widths_pos hne
  rw [TokenTree.widths_append] at hstop
  refine ⟨k + widths lost, body, helements ▸ hcut, helements ▸ nofun,
    Alt.isEpsilon_eq_false helements hes, hproper, hinner, ?_,
    fun x hx => ?_, [], .inl rfl, ?_⟩
  · show table.slice kept.extent.start (kept.extent.stop + 1) = _
    rw [hstart, hfirst, table.slice_self, List.nil_append, hstop, Nat.add_assoc]
  · have := hbehind x hx
    omega
  · rw [hstart, hfirst, table.slice_self]
    exact ⟨by rw [AllSound]; trivial, ⟨rfl, rfl⟩, nofun⟩

/-- The parts of an alternative that is not empty. -/
theorem Alt.Spelled.parts {alt : Alt} {i : Nat} {ts : List TokenTree} (h : alt.Spelled i ts)
    (hepsilon : alt.isEpsilon = false) :
    ∃ front body back first rest, ts = front ++ body ++ back ∧ alt.options.Spelled i front ∧
      AltLabelSpelled alt.label (i + widths front + widths body) back ∧ body ≠ [] ∧
      alt.elements = first :: rest ∧ Element.ListSpelled (i + widths front) body alt.elements ∧
      alt.extent.start = (if front = [] then first.extent.start else i) ∧
      alt.extent.stop + 1 = i + widths front + widths body + widths back := by
  obtain ⟨elements, options, label, extent, info⟩ := alt
  rw [Alt.Spelled] at h
  obtain ⟨-, front, body, back, rfl, hoptions, hlabel, hextent, hbody⟩ := h
  rcases hbody with ⟨-, rfl⟩ | ⟨hbody, hne, hes⟩
  · cases hepsilon
  have hpos := widths_pos hbody
  rw [if_neg fun h => hbody h.2] at hextent
  obtain ⟨first, rest, rfl⟩ := List.exists_cons_of_ne_nil hne
  refine ⟨front, body, back, first, rest, rfl, hoptions, hlabel, hbody, rfl, hes,
    congrArg Extent.start hextent, ?_⟩
  show extent.stop + 1 = _
  rw [hextent]
  simp only [TokenTree.widths_append]
  omega

/-- The first element of an alternative begins among the tokens of its elements. -/
theorem Element.ListSpelled.start_lt {e : Element} {es : List Element} {i : Nat} {ts : List TokenTree}
    (h : Element.ListSpelled i ts (e :: es)) (hproper : e.isProper = true) :
    e.extent.start < i + widths ts := by
  obtain ⟨lost, body, rfl, hne, hstart, -⟩ := h.cut hproper
  have := widths_pos hne
  rw [hstart, TokenTree.widths_append]
  omega

/-- Whether the text of what is kept of an alternative begins with the token of its first element. -/
def Alt.isCut (alt : Alt) (shape : AltShape) : Bool :=
  shape.isOperator || alt.options.extent.isNone

/-- An alternative that keeps all of its elements. -/
theorem Alt.Stands.keeps_all {table : TokenTable} {alt : Alt} {i : Nat} {ts : List TokenTree}
    (h : alt.Stands table i ts) (hepsilon : alt.isEpsilon = false) :
    ∃ j body, alt.withoutLabelTokens.Keeps table alt.options.extent.isNone j body := by
  obtain ⟨front, body, back, first, rest, rfl, hoptions, hlabel, hbody, helements, hes, hstart, hstop⟩ :=
    h.spelled.parts hepsilon
  have hproper := alt.isProper_eq ▸ h.proper
  have hpos := widths_pos hbody
  have hfirst := (helements ▸ hes).start_lt (Element.allProper_cons.mp (helements ▸ hproper)).1
  obtain ⟨hothers, -⟩ := h.standing.slice_append
  obtain ⟨hfront, hinner⟩ := hothers.slice_append
  rw [Alt.withoutLabelTokens_eq hlabel (by rw [hstart]; split <;> omega) hstop]
  rcases hoptions.extent_eq with ⟨rfl, hnone⟩ | ⟨hne, hsome⟩
  · -- without options its text begins with the first element
    rw [hnone]
    rw [if_pos rfl] at hstart
    refine Alt.exists_keeps helements hes hproper (alt.nodes_eq ▸ hinner) hstart ?_
      fun x hx => ?_
    · show _ - 1 + 1 = _
      omega
    · rw [show alt.options.extent.toList = [] from congrArg Option.toList hnone] at hx
      cases hx
  · rw [if_neg hne] at hstart
    rw [hsome]
    refine ⟨i + widths front, body, hes, helements ▸ nofun, hepsilon, hproper, alt.nodes_eq ▸ hinner, ?_,
      fun x hx => ?_, front, .inr ?_, ?_⟩
    · show table.slice alt.extent.start (_ - 1 + 1) = table.slice alt.extent.start _ ++ _
      rw [hstart, Nat.sub_add_cancel (by omega)]
      exact table.slice_append (by omega) (by omega)
    · exact (hoptions.inside x hx).2
    · rw [hstart]
      exact hoptions
    · rw [hstart]
      exact hfront.subset (List.nil_subset _)

/-- An alternative that has lost the operand at its front. -/
theorem Alt.Stands.keeps_tail {table : TokenTable} {alt : Alt} {i : Nat} {ts : List TokenTree}
    (h : alt.Stands table i ts) (hepsilon : alt.isEpsilon = false) {first second : Element}
    {rest : List Element} (helements : alt.elements = first :: second :: rest) {name : String}
    (hfirst : first.refersTo name = true) (altLabel : Option String) :
    ∃ j body, (alt.withoutLeadingRef name altLabel).1.withoutLabelTokens.Keeps table true j body := by
  obtain ⟨front, body, back, _, _, rfl, hoptions, hlabel, hbody, -, hes, -, hstop⟩ :=
    h.spelled.parts hepsilon
  obtain ⟨hothers, -⟩ := h.standing.slice_append
  obtain ⟨-, hinner⟩ := hothers.slice_append
  rw [helements, Element.ListSpelled] at hes
  obtain ⟨lost, body, rfl, hlost, -, hes⟩ := hes
  obtain ⟨-, hinner⟩ := hinner.slice_append
  have hnodes : alt.nodes = first.nodes ++ Element.listNodes (second :: rest) := by
    rw [alt.nodes_eq, helements, Element.listNodes]
  have hproper := alt.isProper_eq ▸ h.proper
  rw [helements] at hproper
  obtain ⟨-, -, hproper⟩ := Element.allProper_cons.mp hproper
  have hsecond := hes.start_lt (Element.allProper_cons.mp hproper).1
  have hkept : (alt.withoutLeadingRef name altLabel).1 = { alt with
      elements := second :: rest
      extent := ⟨second.extent.start, alt.extent.stop⟩ } := by
    unfold Alt.withoutLeadingRef
    rw [helements]
    dsimp only
    rw [if_pos hfirst, List.head?_cons, Option.map_some, Option.getD_some]
  rw [TokenTree.widths_append, ← Nat.add_assoc] at hlabel hstop
  have hcut := @Alt.withoutLabelTokens_eq (alt.withoutLeadingRef name altLabel).1 _ _
    (by rw [hkept]; exact hlabel) (by rw [hkept]; exact hsecond) (by rw [hkept]; exact hstop)
  rw [hcut, hkept]
  refine Alt.exists_keeps rfl hes hproper ?_ rfl ?_ fun x hx => ?_
  · exact hinner.subset (hnodes ▸ List.subset_append_right ..)
  · show _ - 1 + 1 = _
    omega
  · have := (hoptions.inside x hx).2
    omega

/-- The elements that are kept of an alternative with a shape. -/
theorem Alt.Stands.keeps {table : TokenTable} {alt : Alt} {i : Nat} {ts : List TokenTree}
    (h : alt.Stands table i ts) {name : String} {num : Nat} {shape : AltShape}
    (hshape : alt.shape name num = .ok shape) :
    ∃ j body, (alt.kept name shape).Keeps table (alt.isCut shape) j body := by
  obtain ⟨hepsilon, hoperator⟩ := Alt.exists_of_shape hshape
  unfold Alt.kept Alt.isCut
  cases hisOperator : shape.isOperator with
  | true =>
      obtain ⟨first, second, rest, helements, hfirst⟩ := hoperator hisOperator
      exact h.keeps_tail hepsilon helements hfirst _
  | false => exact h.keeps_all hepsilon

/-! ## The text of the remainder -/

section Mapped

variable {σ : Type} {f : σ → Element → σ × Options} {table : TokenTable} {cut : Bool} {kept : Alt}
  {j : Nat} {body : List TokenTree}

theorem Alt.isEpsilon_mapOptions (alt : Alt) (s : σ) :
    (alt.mapOptions f s).2.isEpsilon = alt.isEpsilon := by
  obtain ⟨elements, options, label, extent, info⟩ := alt
  unfold isEpsilon Alt.mapOptions
  dsimp only
  induction elements generalizing s with
  | nil => rfl
  | cons e es ih =>
      rw [Element.mapListOptions_cons, List.all_cons, List.all_cons, ih]
      cases e <;> rfl

/-- What elements are read back as, with `cut` from the token on that the first of them begins
with. -/
def Element.asRead (cut : Bool) (es : List Element) : List Element :=
  if cut then Element.signless (Element.allCopied es) else Element.allCopied es

theorem Element.signless_ne_nil {es : List Element} (h : es ≠ []) : Element.signless es ≠ [] := by
  obtain ⟨e, es, rfl⟩ := List.exists_cons_of_ne_nil h
  cases e <;> exact nofun

/-- What is kept of an alternative is written as what its elements are read back as. -/
theorem Alt.Keeps.exists_inked (h : kept.Keeps table cut j body) (hf : Marking f) (s : σ) :
    ∃ us, Inked false us (" " ++ Text.trim ((kept.mapOptions f s).2.text table)) false ∧
      Element.ListCopied us (Element.asRead cut (kept.mapOptions f s).2.elements) := by
  have hepsilon := (kept.isEpsilon_mapOptions (f := f) s).trans h.written
  obtain ⟨elements, options, label, extent, info⟩ := kept
  have hguide := guide_optionExtents (Alt.mapOptions f s ⟨elements, options, label, extent, info⟩).2 j
    (widths body)
  obtain ⟨ts, hts, hfront⟩ := h.front
  unfold Alt.text
  rw [hepsilon, if_neg Bool.false_ne_true]
  dsimp only
  rw [show (Alt.mapOptions f s ⟨elements, options, label, extent, info⟩).2.tokensIn table = _ from
    h.tokens]
  have hleft : ∀ {skips : Nat → Bool} {element? : Nat → Option Element},
      (∀ x ∈ options.extent.toList, ∀ i, x.start ≤ i → i ≤ x.stop → skips i = true) →
      Adds skips element? false (table.slice extent.start j) "" false := by
    intro skips element? hskips
    rcases hts with rfl | hoptions
    · rw [hfront.numbered.nil]
      exact .nil false
    · exact hoptions.adds hfront.numbered hskips false
  have hne : Element.allCopied (Element.mapListOptions f s elements).2 ≠ [] := by
    obtain ⟨first, rest, rfl⟩ := List.exists_cons_of_ne_nil h.ne_nil
    exact nofun
  have hreplays : ∀ {skips : Nat → Bool} {element? : Nat → Option Element},
      Guide skips element? j (widths body)
        (skippedIn (Element.listNodes (Element.mapListOptions f s elements).2))
        (Element.listNodes (Element.mapListOptions f s elements).2) →
      Replays skips element? false (table.slice j (j + widths body))
        (Element.ListCopied · (Element.asRead cut (Element.mapListOptions f s elements).2)) := by
    intro skips element? hguide
    have hspelled := h.spelled
    unfold Element.asRead
    split at hspelled
    · next hcut =>
        rw [if_pos hcut]
        exact hspelled.replays hf s h.proper h.inner hguide false
    · next hcut =>
        rw [if_neg hcut]
        exact Element.ListSpelled.replays hf elements s hspelled h.proper h.inner hguide false
  refine (hreplays ?_).exists_inked ?_ (hleft fun x hx i hi hi' => ?_) ?_
  · rw [Alt.optionExtents_eq, Alt.nodes_eq] at hguide
    refine hguide.narrow (Nat.le_refl _) (Nat.le_refl _) (fun x hx => List.mem_append_right _ hx)
      (fun e he => he) (fun x hx => ?_) (fun e he _ => .inl he)
    rcases List.mem_append.mp hx with hx | hx
    · exact .inr (.inl (h.behind x hx))
    · exact .inl hx
  · unfold Element.asRead
    split
    · exact Element.signless_ne_nil hne
    · exact hne
  · exact List.any_eq_true.mpr ⟨x, List.mem_append_left _ hx, Extent.covers_iff.mpr ⟨hi, hi'⟩⟩
  · have htexts : ∀ {nodes : List Element} {i : Nat} {ts : List TokenTree} {tokens : List Token},
        Standing nodes i ts tokens → ∀ t ∈ tokens, t.text ≠ "" := fun hstanding t ht =>
      TokenTree.text_ne_of_allSound hstanding.sound t.written
        (hstanding.numbered.written ▸ List.mem_map_of_mem ht)
    exact List.forall_mem_append.mpr ⟨htexts hfront, htexts h.inner⟩

end Mapped

/-- The text that stands for an alternative in the new rule is that of what the elements that remain
of it are read back as. -/
theorem Alt.Stands.exists_inked {table : TokenTable} {alt : Alt} {i : Nat} {ts : List TokenTree}
    (h : alt.Stands table i ts) {name : String} {num : Nat} {shape : AltShape}
    (hshape : alt.shape name num = .ok shape) (demand : Option Nat) :
    ∃ us, Inked false us (" " ++ Text.trim ((alt.remainder name shape demand).text table)) false ∧
      Element.ListCopied us
        (Element.asRead (alt.isCut shape) (alt.remainder name shape demand).elements) := by
  obtain ⟨j, body, hkeeps⟩ := h.keeps hshape
  cases demand with
  | none =>
      have hown := hkeeps.exists_inked marking_own ()
      rwa [Alt.mapOptions_own] at hown
  | some precedence => exact hkeeps.exists_inked (marking_demanding ..) 0

end GrammarCompiler
