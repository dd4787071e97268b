import GrammarCompiler.Proofs.Ast.Changes
import GrammarCompiler.Proofs.Ast.Proper
import GrammarCompiler.Proofs.Recursion.Added
import GrammarCompiler.Proofs.Recursion.Guided
import GrammarCompiler.Proofs.TokenTree.Sound

/-!
# Elements written out anew

The tokens of an element are replayed as the trees of its copy (`Element.Spelled.replays`): options in
the source are left out, and behind every reference, literal and wildcard stand its options as they
are by then, together with the token it came from. The induction goes along the element, and each part
of it is replayed by itself.
-/

namespace GrammarCompiler

open Text (isName)
open TokenTree (leaf group widths AllSound allWritten)

/-! ## What is asked of an element -/

/-- Whether options are changed in their entries only, and only where they are written out. -/
structure Marking {σ : Type} (f : σ → Element → σ × Options) : Prop where
  extent : ∀ s e, (f s e).2.extent = e.ownOptions.extent
  printable : ∀ s e, Printable e.ownOptions.entries → Printable (f s e).2.entries
  other : ∀ s e, e.isReplayed = false → (f s e).2 = e.ownOptions

/-- Whether no option of some elements has the text of a quoted literal for its value. -/
def UnquotedIn (nodes : List Element) (tokens : List Token) : Prop :=
  ∀ e ∈ nodes, ∀ extent ∈ e.ownOptions.extent, ∀ t ∈ tokens, extent.covers t.index = true →
    t.kind = .literal → Literal.value? t.text = none

instance (nodes : List Element) (tokens : List Token) : Decidable (UnquotedIn nodes tokens) :=
  inferInstanceAs (Decidable (∀ e ∈ nodes, ∀ extent ∈ e.ownOptions.extent, ∀ t ∈ tokens, _))

/-- Whether tokens are those of trees that can be written out, and so are the options of elements. -/
structure Standing (nodes : List Element) (i : Nat) (ts : List TokenTree) (tokens : List Token) :
    Prop where
  sound : AllSound ts
  numbered : Numbered i ts tokens
  unquoted : UnquotedIn nodes tokens

namespace Standing

variable {nodes nodes' others : List Element} {i : Nat} {t : TokenTree} {ts us : List TokenTree}
  {tokens : List Token}

theorem subset (h : Standing nodes i ts tokens) (hnodes : nodes' ⊆ nodes) :
    Standing nodes' i ts tokens :=
  ⟨h.sound, h.numbered, fun e he => h.unquoted e (hnodes he)⟩

theorem append (h : Standing nodes i (ts ++ us) tokens) : ∃ front back, tokens = front ++ back ∧
    Standing nodes i ts front ∧ Standing nodes (i + widths ts) us back := by
  obtain ⟨front, back, rfl, hfront, hback⟩ := h.numbered.append
  obtain ⟨hsound, hsound'⟩ := TokenTree.allSound_append.mp h.sound
  exact ⟨front, back, rfl,
    ⟨hsound, hfront, fun e he x hx t ht => h.unquoted e he x hx t (List.mem_append_left _ ht)⟩,
    ⟨hsound', hback, fun e he x hx t ht => h.unquoted e he x hx t (List.mem_append_right _ ht)⟩⟩

theorem single {w : Written} (h : Standing nodes i (t :: ts) tokens) (hw : t.written = [w]) :
    ∃ token rest, tokens = token :: rest ∧ token.index = i ∧ token.written = w ∧
      Standing nodes (i + 1) ts rest := by
  obtain ⟨token, rest, rfl, hindex, htoken, hrest⟩ := h.numbered.single hw
  exact ⟨token, rest, rfl, hindex, htoken, h.sound.tail, hrest,
    fun e he x hx t ht => h.unquoted e he x hx t (List.mem_cons_of_mem _ ht)⟩

theorem parenthesis {opened closed : Text.Position} {body : List TokenTree}
    (h : Standing nodes i [group .parenthesis opened closed body] tokens) :
    ∃ first inner last, tokens = [first] ++ (inner ++ [last]) ∧
      (first.index = i ∧ first.written = ⟨.openParen, "(", false⟩) ∧
      Standing nodes (i + 1) body inner ∧
      (last.index = i + 1 + widths body ∧ last.written = ⟨.closeParen, ")", false⟩) := by
  obtain ⟨first, inner, last, rest, rfl, hfirst, hinner, hlast, hrest⟩ := h.numbered.parenthesis
  obtain rfl := hrest.nil
  exact ⟨first, inner, last, rfl, hfirst, ⟨h.sound.inside, hinner,
    fun e he x hx t ht => h.unquoted e he x hx t (by simp [ht])⟩, hlast⟩

end Standing

/-! ## Parts -/

/-- Whether replaying tokens writes out trees of a kind. -/
def Replays (skips : Nat → Bool) (element? : Nat → Option Element) (glue : Bool)
    (tokens : List Token) (copied : List TokenTree → Prop) : Prop :=
  ∃ ts text glue', Inked glue ts text glue' ∧ Adds skips element? glue tokens text glue' ∧ copied ts

section Parts

variable {skips : Nat → Bool} {element? : Nat → Option Element} {glue : Bool} {i n k : Nat}
  {tokens others : List Token} {copied copied' : List TokenTree → Prop} {ts : List TokenTree}

theorem Replays.mono (h : Replays skips element? glue tokens copied)
    (himp : ∀ ts, copied ts → copied' ts) : Replays skips element? glue tokens copied' := by
  obtain ⟨ts, text, glue', hinked, hadds, hcopied⟩ := h
  exact ⟨ts, text, glue', hinked, hadds, himp ts hcopied⟩

theorem Replays.append (h : Replays skips element? glue tokens copied)
    (h' : ∀ glue, Replays skips element? glue others copied') :
    Replays skips element? glue (tokens ++ others) fun ts =>
      ∃ front back, ts = front ++ back ∧ copied front ∧ copied' back := by
  obtain ⟨front, text, mid, hinked, hadds, hfront⟩ := h
  obtain ⟨back, more, glue', hinked', hadds', hback⟩ := h' mid
  exact ⟨_, _, _, hinked.append hinked', hadds.append hadds', front, back, rfl, hfront, hback⟩

/-- Whether a tree is written out as it is: a leaf, embedded code, or a name in parentheses, as the
argument of a lexer command is. -/
def TokenTree.IsPlain : TokenTree → Prop
  | .leaf (.ident text) _ => isName text = true
  | .leaf (.literal text) _ => Literal.length? text.toList = some text.toList.length
  | .leaf (.punct c _) _ => Lexeme.isSign c = true
  | .group .brace opened closed body => IsPrinted (.group .brace opened closed body)
  | .group .parenthesis _ _ body => ∃ text p, body = [leaf (.ident text) p] ∧ isName text = true
  | .group .bracket _ _ _ => False

/-- A token that is neither skipped nor marked. -/
theorem replays_token {t : TokenTree} {w : Written} (hw : t.written = [w]) (hkind : w.kind ≠ .argAction)
    (h : Numbered i [t] tokens) (hguide : skips i = false ∧ element? i = none) {glue : Bool}
    (hinked : Inked glue [t] ((if glue && w.kind = .punct then "" else " ") ++ w.text)
      (w.kind = .punct && w.joint)) : Replays skips element? glue tokens (· = [t]) := by
  obtain ⟨token, rest, rfl, rfl, hwritten, hrest⟩ := h.single hw
  obtain rfl := hrest.nil
  exact ⟨_, _, _, hinked, .plain (show token.written = ⟨w.kind, w.text, w.joint⟩ from hwritten) hkind
    hguide.1 hguide.2, rfl⟩

theorem replays_word {text : String} {p : Text.Position} (htext : isName text = true)
    (h : Numbered i [leaf (.ident text) p] tokens) (hguide : skips i = false ∧ element? i = none)
    (glue : Bool) : Replays skips element? glue tokens (· = [leaf (.ident text) p]) := by
  refine replays_token rfl (by simp) h hguide ?_
  have hinked : Inked glue _ _ _ := .word (p := p) htext .nothing (.nil false)
  simpa [markText] using hinked

/-- A group in parentheses is written out if what is inside is. -/
theorem replays_enclosed (opened closed : Text.Position) {first last : Token} {inner : List Token}
    (hfirst : first.written = ⟨.openParen, "(", false⟩)
    (hlast : last.written = ⟨.closeParen, ")", false⟩)
    (hguide : skips first.index = false ∧ element? first.index = none)
    (hguide' : skips last.index = false ∧ element? last.index = none)
    (hbody : Replays skips element? false inner copied) (glue : Bool) :
    Replays skips element? glue ([first] ++ (inner ++ [last])) fun ts =>
      ∃ body, ts = [group .parenthesis opened closed body] ∧ copied body := by
  obtain ⟨body, content, glue', hinked, hadds, hcopied⟩ := hbody
  have hopen : Adds skips element? glue _ _ _ := .plain hfirst (by decide) hguide.1 hguide.2
  have hclose : Adds skips element? glue' _ _ _ := .plain hlast (by decide) hguide'.1 hguide'.2
  refine ⟨_, _, false, .parenthesis hinked (.nil false), ?_, body, rfl, hcopied⟩
  have hall := hopen.append (hadds.append hclose)
  simpa [String.append_assoc] using hall

/-- The tokens of a tree that are neither skipped nor marked. -/
theorem replays_plain_tree {t : TokenTree} (ht : t.IsPlain) (h : Numbered i [t] tokens)
    (hguide : ∀ j, i ≤ j → j < i + t.width → skips j = false ∧ element? j = none) (glue : Bool) :
    Replays skips element? glue tokens (· = [t]) := by
  have hstart := hguide i (Nat.le_refl i) (Nat.lt_add_of_pos_right t.width_pos)
  cases t with
  | leaf token p =>
      cases token with
      | ident text => exact replays_word ht h hstart glue
      | literal text =>
          refine replays_token rfl (by simp) h hstart ?_
          have hinked : Inked glue _ _ _ := .literal (p := p) ht .nothing (.nil false)
          simpa [markText] using hinked
      | punct c joint =>
          refine replays_token (w := ⟨.punct, c.toString, joint⟩) rfl (by simp) h hstart ?_
          have hinked : Inked glue _ _ _ := .sign (p := p) ht (.nil joint)
          cases glue <;> simpa [gap] using hinked
  | group delimiter opened closed body =>
      cases delimiter with
      | bracket => exact ht.elim
      | brace =>
          refine replays_token rfl (by simp) h hstart ?_
          have hinked : Inked glue _ _ _ := .code (by decide) ht .nothing (.nil false)
          simpa [markText, TokenTree.text, TokenTree.print] using hinked
      | parenthesis =>
          obtain ⟨text, p, rfl, htext⟩ := ht
          obtain ⟨first, inner, last, rest, rfl, ⟨hindex, hfirst⟩, hinner, ⟨hindex', hlast⟩, hrest⟩ :=
            h.parenthesis
          obtain rfl := hrest.nil
          have hguide : ∀ j, i ≤ j → j < i + 3 → skips j = false ∧ element? j = none := by
            simpa using hguide
          rw [TokenTree.widths_cons, TokenTree.width_leaf, TokenTree.widths_nil] at hindex'
          refine (replays_enclosed opened closed hfirst hlast (hguide _ (by omega) (by omega))
            (hguide _ (by omega) (by omega))
            (replays_word htext hinner (hguide _ (by omega) (by omega)) false) glue).mono ?_
          rintro us ⟨_, rfl, rfl⟩
          rfl

/-- Tokens that are neither skipped nor marked. -/
theorem replays_plain (hplain : ∀ t ∈ ts, t.IsPlain) (h : Numbered i ts tokens)
    (hguide : ∀ j, i ≤ j → j < i + widths ts → skips j = false ∧ element? j = none) (glue : Bool) :
    Replays skips element? glue tokens (· = ts) := by
  induction ts generalizing i tokens glue with
  | nil =>
      rw [h.nil]
      exact ⟨[], "", glue, .nil glue, .nil glue, rfl⟩
  | cons t ts ih =>
      obtain ⟨ht, hts⟩ := List.forall_mem_cons.mp hplain
      obtain ⟨front, back, rfl, hfront, hback⟩ :=
        (show Numbered i ([t] ++ ts) tokens from h).append
      rw [TokenTree.widths_cons] at hguide
      rw [TokenTree.widths_cons, TokenTree.widths_nil, Nat.add_zero] at hback
      have hfirst := replays_plain_tree ht hfront (fun j hj hj' => hguide j hj (by omega)) glue
      have hothers := ih hts hback fun j hj hj' => hguide j (by omega) (by omega)
      refine (hfirst.append hothers).mono ?_
      rintro us ⟨_, _, rfl, rfl, rfl⟩
      rfl

/-- A block is written out if what is inside is. -/
theorem replays_parenthesis (opened closed : Text.Position) {first last : Token}
    {inner : List Token} {spans : List Extent} {nodes : List Element}
    (hguide : Guide skips element? i (n + 2) spans nodes) (hinside : Inside (i + 1) n spans nodes)
    (hfirst : first.index = i ∧ first.written = ⟨.openParen, "(", false⟩)
    (hlast : last.index = i + 1 + n ∧ last.written = ⟨.closeParen, ")", false⟩)
    (hbody : Replays skips element? false inner copied) (glue : Bool) :
    Replays skips element? glue ([first] ++ (inner ++ [last])) fun ts =>
      ∃ body, ts = [group .parenthesis opened closed body] ∧ copied body := by
  obtain ⟨rfl, hfirst⟩ := hfirst
  obtain ⟨hindex, hlast⟩ := hlast
  exact replays_enclosed opened closed hfirst hlast
    (hguide.plain hinside (j := first.index) (by omega) (by omega) (by omega))
    (hguide.plain hinside (j := last.index) (by omega) (by omega) (by omega)) hbody glue

/-! ## Options -/

/-- Options are left out. -/
theorem Options.Spelled.adds {options : Options} (h : options.Spelled k ts)
    (hts : Numbered k ts tokens)
    (hskips : ∀ x ∈ options.extent.toList, ∀ j, x.start ≤ j → j ≤ x.stop → skips j = true)
    (glue : Bool) : Adds skips element? glue tokens "" glue := by
  refine Adds.skipped ?_ fun t ht => ?_
  · cases h with
    | none =>
        rw [hts.nil]
        nofun
    | some _ joint p =>
        obtain ⟨token, rest, rfl, -, htoken, -⟩ := hts.single rfl
        intro t ht
        obtain rfl := Option.some.inj ht
        rw [show token.kind = .punct from congrArg Written.kind htoken]
        decide
  · have hbounds := hts.bounds ht
    rcases h.extent_eq with ⟨rfl, -⟩ | ⟨hne, hsome⟩
    · rw [hts.nil] at ht
      cases ht
    · refine hskips _ (Option.mem_toList.mpr hsome) _ ?_ ?_ <;> simp only [Extent.across] <;> omega

theorem Numbered.exists_literal (h : Numbered k ts tokens) {text : String} {p : Text.Position}
    (hmem : leaf (.literal text) p ∈ ts) : ∃ t ∈ tokens, t.kind = .literal ∧ t.text = text := by
  obtain ⟨front, back, rfl⟩ := List.append_of_mem hmem
  obtain ⟨before, behind, rfl, -, hbehind⟩ := h.append
  obtain ⟨t, rest, rfl, -, ht, -⟩ := hbehind.single rfl
  exact ⟨t, by simp, congrArg Written.kind ht, congrArg Written.text ht⟩

theorem Options.Spelled.printable_of_standing {options : Options} {e : Element}
    (h : options.Spelled k ts) (hown : e.ownOptions = options) (hts : Standing [e] k ts tokens) :
    Printable e.ownOptions.entries := by
  rw [hown]
  refine h.printable hts.sound fun text p hmem => ?_
  obtain ⟨t, ht, hkind, rfl⟩ := hts.numbered.exists_literal hmem
  have hbounds := hts.numbered.bounds ht
  rcases h.extent_eq with ⟨rfl, -⟩ | ⟨hne, hsome⟩
  · cases hmem
  · refine hts.unquoted e (List.mem_singleton_self e) _ (hown ▸ hsome) t ht ?_ hkind
    rw [Extent.covers_iff]
    simp only [Extent.across]
    omega

theorem Element.printable_marks {e : Element} (h : Printable e.ownOptions.entries) :
    Printable e.marks := by
  have hothers := h.filter (·.1 != tokenIndexOption)
  have horigin : Printable ((tokenIndexOption, toString e.extent.start) ::
      e.ownOptions.entries.filter (·.1 != tokenIndexOption)) :=
    .cons (by decide) (.literal (Literal.isBareLiteral_toString _)) hothers
  cases e with
  | wildcard => exact hothers
  | _ => exact horigin

end Parts

/-! ## Leaves -/

/-- Whether trees are leaves, and punctuation among them begins no comment. -/
def AreLeaves (ts : List TokenTree) : Prop :=
  ∀ t ∈ ts, ∃ token p, t = leaf token p ∧ ∀ c joint, token = .punct c joint → Lexeme.isSign c = true

namespace AreLeaves

variable {ts us : List TokenTree}

theorem nil : AreLeaves [] := nofun

theorem append (h : AreLeaves ts) (h' : AreLeaves us) : AreLeaves (ts ++ us) :=
  List.forall_mem_append.mpr ⟨h, h'⟩

theorem word (h : AreLeaves ts) (text : String) (p : Text.Position) :
    AreLeaves (leaf (.ident text) p :: ts) :=
  List.forall_mem_cons.mpr ⟨⟨_, p, rfl, nofun⟩, h⟩

theorem literal (h : AreLeaves ts) (text : String) (p : Text.Position) :
    AreLeaves (leaf (.literal text) p :: ts) :=
  List.forall_mem_cons.mpr ⟨⟨_, p, rfl, nofun⟩, h⟩

theorem sign (h : AreLeaves ts) {c : Char} (hc : Lexeme.isSign c = true) (joint : Bool)
    (p : Text.Position) : AreLeaves (leaf (.punct c joint) p :: ts) := by
  refine List.forall_mem_cons.mpr ⟨⟨_, p, rfl, ?_⟩, h⟩
  rintro d joint' heq
  obtain ⟨rfl, -⟩ := Leaf.punct.inj heq
  exact hc

/-- Leaves that can be written out are written out as they are. -/
theorem isPlain (h : AreLeaves ts) (hsound : AllSound ts) : ∀ t ∈ ts, t.IsPlain := by
  induction ts with
  | nil => nofun
  | cons t ts ih =>
      obtain ⟨hfirst, hothers⟩ := List.forall_mem_cons.mp h
      refine List.forall_mem_cons.mpr ⟨?_, ih hothers hsound.tail⟩
      obtain ⟨token, p, rfl, hsign⟩ := hfirst
      cases token with
      | ident text => exact hsound.word.1
      | literal text => exact hsound.literal.1
      | punct c joint => exact hsign c joint rfl

end AreLeaves

theorem AssignmentSpelled.areLeaves {value : String} {ts : List TokenTree}
    (h : AssignmentSpelled value ts) : AreLeaves ts := by
  cases h with
  | nothing => exact .nil
  | value joint p hvalue =>
      refine AreLeaves.sign ?_ (by decide) joint p
      cases hvalue with
      | literal text q => exact AreLeaves.nil.literal text q
      | word => exact AreLeaves.nil.word value _
      | negative joint' q r => exact ((AreLeaves.nil.literal _ r).sign (by decide) joint' q)

theorem EntriesSpelled.areLeaves : ∀ {entries : List (String × String)} {ts : List TokenTree},
    EntriesSpelled entries ts → AreLeaves ts
  | [], _, h => h.elim
  | [(key, value)], _, h => by
      obtain ⟨assignment, joint, p, q, rfl, hassignment⟩ := h
      exact (hassignment.areLeaves.append (AreLeaves.nil.sign (by decide) joint q)).word key p
  | (key, value) :: entry :: entries, _, h => by
      obtain ⟨assignment, joint, p, q, rest, rfl, hassignment, hrest⟩ := h
      exact (hassignment.areLeaves.append (hrest.areLeaves.sign (by decide) joint q)).word key p

theorem SuffixSpelled.areLeaves {suffix : Suffix} {greedy : Bool} {ts : List TokenTree}
    (h : SuffixSpelled suffix greedy ts) : AreLeaves ts := by
  have hsign : Lexeme.isSign suffix.char = true := by cases suffix <;> decide
  cases h with
  | greedy joint p => exact AreLeaves.nil.sign hsign joint p
  | reluctant joint joint' p q => exact (AreLeaves.nil.sign (by decide) joint' q).sign hsign joint p

theorem SignSpelled.areLeaves {isList : Bool} {ts : List TokenTree} (h : SignSpelled isList ts) :
    AreLeaves ts := by
  cases h with
  | one joint p => exact AreLeaves.nil.sign (by decide) joint p
  | list joint p q => exact (AreLeaves.nil.sign (by decide) joint q).sign (by decide) true p

theorem AltLabelSpelled.areLeaves {label : Option AltLabel} {i : Nat} {ts : List TokenTree}
    (h : AltLabelSpelled label i ts) : AreLeaves ts := by
  cases h with
  | none => exact .nil
  | some name i joint p q => exact (AreLeaves.nil.word name q).sign (by decide) joint p

/-! ## Parts in a row -/

section Rows

variable {skips : Nat → Bool} {element? : Nat → Option Element} {i : Nat} {tokens : List Token}
  {front rest : List TokenTree} {copied copied' : List TokenTree → Prop}

/-- Leaves in front of what an element holds. -/
theorem replays_front {e : Element} {nodes others : List Element} (hfront : AreLeaves front)
    (hstanding : Standing others i (front ++ rest) tokens)
    (hguide : Guide skips element? i (widths (front ++ rest)) (skippedIn (e :: nodes)) (e :: nodes))
    (hskipped : e.skippedExtents = []) (he : e.isReplayed = false)
    (hinside : Inside (i + widths front) (widths rest) (skippedIn nodes) nodes)
    (hrest : ∀ {tokens}, Standing others (i + widths front) rest tokens →
      Guide skips element? (i + widths front) (widths rest) (skippedIn nodes) nodes →
      ∀ glue, Replays skips element? glue tokens copied) (glue : Bool) :
    Replays skips element? glue tokens fun us => ∃ back, us = front ++ back ∧ copied back := by
  obtain ⟨before, behind, rfl, hbefore, hbehind⟩ := hstanding.append
  rw [TokenTree.widths_append] at hguide
  have hinner : Guide skips element? (i + widths front) (widths rest) _ nodes :=
    hguide.inner he (by omega) (by omega)
  rw [hskipped, List.nil_append] at hinner
  rw [skippedIn_cons, hskipped, List.nil_append] at hguide
  have hplain := replays_plain (hfront.isPlain hbefore.sound) hbefore.numbered
    (fun j hj hj' => hguide.plain (hinside.cons he) hj (by omega) (.inl hj')) glue
  refine (hplain.append (hrest hbehind hinner)).mono ?_
  rintro us ⟨_, back, rfl, rfl, hback⟩
  exact ⟨back, rfl, hback⟩

/-- Two parts with a bar between them. -/
theorem replays_bar {joint : Bool} {p : Text.Position} {spans spans₁ spans₂ : List Extent}
    {others₁ others₂ nodes nodes₁ nodes₂ : List Element}
    (hstanding : Standing (others₁ ++ others₂) i (front ++ leaf (.punct '|' joint) p :: rest) tokens)
    (hguide : Guide skips element? i (widths (front ++ leaf (.punct '|' joint) p :: rest)) spans nodes)
    (h₁ : Inside i (widths front) spans₁ nodes₁)
    (h₂ : Inside (i + widths front + 1) (widths rest) spans₂ nodes₂)
    (hspans : ∀ x, x ∈ spans ↔ x ∈ spans₁ ∨ x ∈ spans₂)
    (hnodes : ∀ e, e ∈ nodes ↔ e ∈ nodes₁ ∨ e ∈ nodes₂)
    (hfirst : ∀ {tokens}, Standing others₁ i front tokens →
      Guide skips element? i (widths front) spans₁ nodes₁ →
      ∀ glue, Replays skips element? glue tokens copied)
    (hrest : ∀ {tokens}, Standing others₂ (i + widths front + 1) rest tokens →
      Guide skips element? (i + widths front + 1) (widths rest) spans₂ nodes₂ →
      ∀ glue, Replays skips element? glue tokens copied') (glue : Bool) :
    Replays skips element? glue tokens fun us => ∃ front' back,
      us = front' ++ leaf (.punct '|' joint) p :: back ∧ copied front' ∧ copied' back := by
  obtain ⟨before, behind, rfl, hbefore, hbehind⟩ := hstanding.append
  obtain ⟨bar, others, rfl, hbar, hothers⟩ := Standing.append
    (show Standing _ _ ([leaf (.punct '|' joint) p] ++ rest) behind from hbehind)
  rw [TokenTree.widths_append, TokenTree.widths_cons, TokenTree.width_leaf] at hguide
  rw [TokenTree.widths_cons, TokenTree.widths_nil, TokenTree.width_leaf] at hothers
  obtain ⟨hguide₁, hguide₂⟩ :=
    hguide.split h₁ h₂ (Nat.le_refl _) (by omega) (by omega) hspans hnodes
  have hsign := replays_plain ((AreLeaves.nil.sign (by decide) joint p).isPlain hbar.sound)
    hbar.numbered fun j hj hj' => by
      rw [TokenTree.widths_cons, TokenTree.widths_nil, TokenTree.width_leaf] at hj'
      exact hguide.between h₁ h₂ (Nat.le_refl _) (by omega) hspans hnodes hj (by omega)
  refine ((hfirst (hbefore.subset (List.subset_append_left ..)) hguide₁ glue).append fun glue =>
    (hsign glue).append (hrest (hothers.subset (List.subset_append_right ..)) hguide₂)).mono ?_
  rintro us ⟨front', _, rfl, hfront, _, back, rfl, rfl, hback⟩
  exact ⟨front', back, rfl, hfront, hback⟩

end Rows

/-! ## References -/

section References

variable {skips : Nat → Bool} {element? : Nat → Option Element} {i n k : Nat} {e : Element}
  {options : Options} {ts : List TokenTree}

/-- The first token of an element with options is marked, and the options are skipped. -/
theorem Guide.reference (h : Guide skips element? i n (skippedIn [e]) [e])
    (hreplayed : e.isReplayed = true) (hstart : e.extent.start = i) (hoptions : options.Spelled k ts)
    (hskipped : e.skippedExtents = options.extent.toList) (hik : i < k) (hn : k + widths ts = i + n) :
    (skips i = false ∧ element? i = some e) ∧
      ∀ x ∈ options.extent.toList, ∀ j, x.start ≤ j → j ≤ x.stop → skips j = true := by
  refine ⟨h.single hreplayed hstart (by omega) fun x hx => ?_, fun x hx j hj hj' => ?_⟩
  · have := hoptions.inside x (hskipped ▸ hx)
    omega
  · have := hoptions.inside x hx
    refine (h.skips_iff j (by omega) (by omega)).mpr ⟨x, ?_, Extent.covers_iff.mpr ⟨hj, hj'⟩⟩
    simpa [hskipped] using Option.mem_toList.mp hx

/-- A word or a literal with options behind it is written out with a mark. -/
theorem replays_reference {nodes : List Element} {token : Leaf} {p : Text.Position}
    {mark : List TokenTree} {tokens : List Token} (hpunct : token.isPunct = false)
    (hstanding : Standing nodes i (leaf token p :: ts) tokens) (hmark : EntriesPrinted e.marks mark)
    (hstart : e.extent.start = i) (hoptions : options.Spelled (i + 1) ts)
    (hguide : (skips i = false ∧ element? i = some e) ∧
      ∀ x ∈ options.extent.toList, ∀ j, x.start ≤ j → j ≤ x.stop → skips j = true) (glue : Bool) :
    Replays skips element? glue tokens
      (· = leaf token p :: leaf (.punct '<' false) .start :: mark) := by
  obtain ⟨⟨hskips, helement⟩, hskipped⟩ := hguide
  cases token with
  | punct => cases hpunct
  | ident text =>
      obtain ⟨t, rest, rfl, rfl, ht, hrest⟩ := hstanding.single rfl
      have hinked : Inked glue _ _ _ := .word (p := p) hstanding.sound.word.1 (.options hmark)
        (.nil false)
      have hfirst : Adds skips element? glue _ _ _ := .marked ht nofun hskips helement hstart
      have hadds := hfirst.append
        (hoptions.adds hrest.numbered hskipped false)
      refine ⟨_, _, _, hinked, ?_, by rw [List.append_nil]⟩
      simpa using hadds
  | literal text =>
      obtain ⟨t, rest, rfl, rfl, ht, hrest⟩ := hstanding.single rfl
      have hinked : Inked glue _ _ _ := .literal (p := p) hstanding.sound.literal.1 (.options hmark)
        (.nil false)
      have hfirst : Adds skips element? glue _ _ _ := .marked ht nofun hskips helement hstart
      have hadds := hfirst.append
        (hoptions.adds hrest.numbered hskipped false)
      refine ⟨_, _, _, hinked, ?_, by rw [List.append_nil]⟩
      simpa using hadds

/-- A reference with arguments is written out with a mark behind them. -/
theorem replays_arguments {nodes : List Element} {ref : RuleRef} {name : String} {p : Text.Position}
    {opened closed : Text.Position} {body mark : List TokenTree} {tokens : List Token}
    (hstanding : Standing nodes i (leaf (.ident name) p :: group .bracket opened closed body :: ts)
      tokens) (hmark : EntriesPrinted (Element.ruleRef ref).marks mark)
    (hstart : ref.extent.start = i) (hoptions : options.Spelled (i + 1 + 1) ts)
    (hguide : (skips i = false ∧ element? i = some (.ruleRef ref)) ∧
      ∀ x ∈ options.extent.toList, ∀ j, x.start ≤ j → j ≤ x.stop → skips j = true) (glue : Bool) :
    Replays skips element? glue tokens (· = leaf (.ident name) p ::
      ([group .bracket opened closed body] ++ leaf (.punct '<' false) .start :: mark)) := by
  obtain ⟨⟨hskips, helement⟩, hskipped⟩ := hguide
  obtain ⟨t, rest, rfl, rfl, ht, hrest⟩ := hstanding.single rfl
  obtain ⟨u, rest, rfl, -, hu, hrest'⟩ := hrest.single rfl
  have hinked : Inked glue _ _ _ := .word (p := p) hstanding.sound.word.1 .nothing
    (Inked.code (by decide) (hrest.sound.code (by decide)) (.options hmark) (.nil false))
  have hfirst : Adds skips element? glue _ _ _ := .arguments ht hskips helement hstart hu
  have hadds := hfirst.append
    (hoptions.adds hrest'.numbered hskipped false)
  refine ⟨_, _, _, hinked, ?_, by simp⟩
  simpa [markText, TokenTree.text, TokenTree.print, String.append_assoc] using hadds

/-- A wildcard is written out with a mark, if it has options that do not name a token. -/
theorem replays_wildcard {nodes : List Element} {extent : Extent} {marked : Options} {joint : Bool}
    {p : Text.Position} {tokens : List Token}
    (hstanding : Standing nodes i (leaf (.punct '.' joint) p :: ts) tokens)
    (hprintable : Printable (Element.wildcard marked extent).marks) (hstart : extent.start = i)
    (hoptions : options.Spelled (i + 1) ts)
    (hguide : (skips i = false ∧ element? i = some (.wildcard marked extent)) ∧
      ∀ x ∈ options.extent.toList, ∀ j, x.start ≤ j → j ≤ x.stop → skips j = true) (glue : Bool) :
    Replays skips element? glue tokens fun us => ∃ joint q mark,
      us = leaf (.punct '.' joint) q :: mark ∧
        MarkPrinted (Element.wildcard marked extent).marks mark := by
  obtain ⟨⟨hskips, helement⟩, hskipped⟩ := hguide
  obtain ⟨t, rest, rfl, rfl, ht, hrest⟩ := hstanding.single rfl
  have hgap : (if (glue && decide (TokenKind.punct = TokenKind.punct)) = true then "" else " ") =
      gap glue := by
    cases glue <;> rfl
  have hdot : Adds skips element? glue _ _ _ := .marked ht nofun hskips helement hstart
  rw [hgap] at hdot
  generalize hmarks : (Element.wildcard marked extent).marks = marks at hprintable hdot
  cases marks with
  | nil =>
      have hinked : Inked glue _ _ _ := .sign (p := p) (c := '.') (by decide) (.nil joint)
      have hadds := hdot.append (hoptions.adds hrest.numbered hskipped _)
      refine ⟨_, _, _, hinked, ?_, joint, p, [], rfl, .nothing⟩
      simpa [markText] using hadds
  | cons entry entries =>
      obtain ⟨mark, hmark⟩ := hprintable.exists_printed
      have hinked : Inked glue _ _ _ := .dot (p := p) hmark (.nil false)
      have hadds := hdot.append (hoptions.adds hrest.numbered hskipped _)
      refine ⟨_, _, _, hinked, ?_, true, p, leaf (.punct '<' false) .start :: mark, by simp,
        .options hmark⟩
      simpa [Char.toString] using hadds

end References

/-! ## Copies -/

theorem AltLabelSpelled.copied {label : Option AltLabel} {i : Nat} {ts : List TokenTree}
    (h : AltLabelSpelled label i ts) : AltLabelCopied (label.map (·.unplaced)) ts := by
  cases h with
  | none => exact .none
  | some name i joint p q => exact .some name joint p q

theorem QuotationSpelled.copied {literal : Quotation} {t : TokenTree} (h : QuotationSpelled literal t)
    (hoptions : literal.options = .none) : QuotationCopied literal.unplaced t := by
  obtain ⟨hvalue, hempty, p, rfl⟩ := h
  rw [Quotation.unplaced, hoptions]
  exact .intro p hvalue hempty

theorem Options.Spelled.kept {options : Options} {i : Nat} {ts : List TokenTree}
    (h : options.Spelled i ts) : OptionsKept options.entries ts := by
  cases h with
  | none => exact .none
  | some _ joint p hentries => exact .some joint p hentries

theorem Options.Spelled.areLeaves {options : Options} {i : Nat} {ts : List TokenTree}
    (h : options.Spelled i ts) : AreLeaves ts := by
  cases h with
  | none => exact .nil
  | some _ joint p hentries => exact hentries.areLeaves.sign (by decide) joint p

/-! ## Lexer commands -/

theorem CommandMarkSpelled.areLeaves {ts : List TokenTree} (h : CommandMarkSpelled ts) :
    AreLeaves ts := by
  cases h with
  | arrow joint p q => exact (AreLeaves.nil.sign (by decide) joint q).sign (by decide) true p
  | comma joint p => exact AreLeaves.nil.sign (by decide) joint p

/-- Nothing is left over behind the argument of a command that is proper. -/
theorem CommandArgSpelled.copied {name : String} {arg : Option String} {extent : Extent} {i : Nat}
    {t : TokenTree} {ts : List TokenTree} (h : CommandArgSpelled arg ts)
    (hextent : extent = .across i (t :: ts)) (hwidth : t.width = 1)
    (hproper : (Element.command name arg extent).isProper = true) : CommandArgCopied arg ts := by
  cases h with
  | none => exact .none
  | some arg opened closed p left =>
      have hstop : extent.stop = extent.start + 3 := beq_iff_eq.mp hproper
      rw [hextent, Extent.across] at hstop
      simp only [TokenTree.widths_cons, TokenTree.width_parenthesis, TokenTree.width_leaf,
        TokenTree.widths_nil, hwidth] at hstop
      cases left with
      | nil => exact .some arg opened closed p
      | cons u us =>
          have hpos := u.width_pos
          rw [TokenTree.widths_cons] at hstop
          omega

theorem CommandArgCopied.isPlain {arg : Option String} {ts : List TokenTree}
    (h : CommandArgCopied arg ts) (hsound : AllSound ts) : ∀ t ∈ ts, t.IsPlain := by
  cases h with
  | none => exact fun _ ht => absurd ht List.not_mem_nil
  | some arg opened closed p =>
      intro t ht
      rw [List.mem_singleton.mp ht]
      exact ⟨arg, p, rfl, hsound.inside.word.1⟩

/-! ## Shapes -/

@[simp]
theorem Element.isSet_recast (f : Element → List (String × String))
    (g : Options → List (String × String)) (e : Element) : (e.recast f g).isSet = e.isSet := by
  cases e <;> rfl

theorem Element.isSet_eq_false {e : Element} (h : e.isProper = true) : e.isSet = false := by
  cases e with
  | set => cases h
  | _ => rfl

theorem Element.isProper_of_isNegatable {e : Element} (h : Cursor.isNegatable e = true) :
    e.isProper = true := by
  cases e <;> first | rfl | cases h

theorem TokenTree.isPlain_brace {opened closed : Text.Position} {body ts : List TokenTree}
    (h : AllSound (group .brace opened closed body :: ts)) :
    (group .brace opened closed body).IsPlain :=
  h.code (by decide)

section Copies

variable {σ : Type} {f : σ → Element → σ × Options} {skips : Nat → Bool}
  {element? : Nat → Option Element}

@[simp]
theorem Element.isSet_mapOptions (e : Element) (s : σ) : (e.mapOptions f s).2.isSet = e.isSet := by
  cases e <;> rfl

@[simp]
theorem Element.isCommand_mapOptions (e : Element) (s : σ) :
    (e.mapOptions f s).2.isCommand = e.isCommand := by
  cases e <;> rfl

/-- Elements among which there are commands only, or none, stay so. -/
theorem Element.isCommand_of_mem_mapListOptions {b : Bool} : ∀ {es : List Element} (s : σ),
    (∀ e ∈ es, e.isCommand = b) → ∀ e ∈ (Element.mapListOptions f s es).2, e.isCommand = b
  | [], _, _ => fun _ he => absurd he List.not_mem_nil
  | e :: es, s, h => by
      obtain ⟨he, hes⟩ := List.forall_mem_cons.mp h
      refine List.forall_mem_cons.mpr ⟨?_, Element.isCommand_of_mem_mapListOptions _ hes⟩
      rw [Element.isCommand_mapOptions]
      exact he

theorem Element.isCommand_of_mem_allCopied {b : Bool} {es : List Element}
    (h : ∀ e ∈ es, e.isCommand = b) : ∀ e ∈ Element.allCopied es, e.isCommand = b := by
  unfold Element.allCopied
  rw [Element.allRecast_eq_map, List.forall_mem_map]
  intro e he
  rw [Element.isCommand_recast]
  exact h e he

@[simp]
theorem Element.isBare_mapOptions (e : Element) (s : σ) : (e.mapOptions f s).2.isBare = e.isBare := by
  cases e <;> rfl

@[simp]
theorem Element.isUnsuffixed_mapOptions (e : Element) (s : σ) :
    (e.mapOptions f s).2.isUnsuffixed = e.isUnsuffixed := by
  cases e <;> rfl

theorem Element.isAction_mapOptions : ∀ (e : Element) (s : σ),
    (e.mapOptions f s).2.isAction = e.isAction
  | .labeled isList label token element extent, s =>
      Element.isAction_mapOptions element (f s (.labeled isList label token element extent)).1
  | .block .., _ | .ruleRef _, _ | .tokenRef .., _ | .quotation _, _ | .range .., _
  | .wildcard .., _ | .not .., _ | .set .., _ | .suffixed .., _ | .action _, _ | .predicate _, _
  | .command .., _ | .epsilon _, _ => rfl

theorem Element.ownOptions_mapOptions {e : Element} (h : e.isReplayed = true) (s : σ) :
    (e.mapOptions f s).2.ownOptions = (f s e).2 := by
  cases e <;> first | rfl | cases h

/-- An element whose options can be written out has a mark that can be. -/
theorem Marking.printable_marks {tokens : List Token} {options : Options} {k : Nat}
    {ts : List TokenTree} (hf : Marking f) (s : σ) {e : Element} (hreplayed : e.isReplayed = true)
    (hown : e.ownOptions = options) (hoptions : options.Spelled k ts)
    (hts : Standing [e] k ts tokens) : Printable (e.mapOptions f s).2.marks := by
  refine Element.printable_marks ?_
  rw [Element.ownOptions_mapOptions hreplayed]
  exact hf.printable s e (hoptions.printable_of_standing hown hts)

/-- An element that names its token has a mark at any rate. -/
theorem Marking.exists_mark {tokens : List Token} {options : Options} {k : Nat}
    {ts : List TokenTree} (hf : Marking f) (s : σ) {e : Element} (hreplayed : e.isReplayed = true)
    (hwildcard : ∀ options extent, e ≠ .wildcard options extent)
    (hown : e.ownOptions = options) (hoptions : options.Spelled k ts)
    (hts : Standing [e] k ts tokens) :
    ∃ mark, EntriesPrinted (e.mapOptions f s).2.marks mark := by
  have hmarks := hf.printable_marks s hreplayed hown hoptions hts
  cases e with
  | wildcard options extent => exact absurd rfl (hwildcard options extent)
  | ruleRef | tokenRef | quotation => exact hmarks.exists_printed
  | _ => cases hreplayed

/-- A part in which nothing is skipped and nothing marked. -/
theorem Guide.bare {i n : Nat} {e : Element} (h : Guide skips element? i n (skippedIn [e]) [e])
    (hskipped : e.skippedExtents = []) (he : e.isReplayed = false) :
    ∀ j, i ≤ j → j < i + n → skips j = false ∧ element? j = none := by
  have hinside : Inside (i + n) 0 (skippedIn [e]) [e] := by
    rw [skippedIn_cons, hskipped]
    exact (Inside.nil _ _).cons he
  exact fun j hj hj' => h.plain hinside hj hj' (.inl hj')

/-! ## One element after another -/

/-- Whether the tokens of an element are replayed as the trees of its copy. -/
def Element.Replayed (f : σ → Element → σ × Options) (skips : Nat → Bool)
    (element? : Nat → Option Element) (e : Element) : Prop :=
  ∀ (s : σ) {i : Nat} {ts : List TokenTree} {tokens : List Token}, e.Spelled i ts →
    (e.isProper || e.isSet) = true → Standing e.nodes i ts tokens →
    Guide skips element? i (widths ts) (skippedIn (e.mapOptions f s).2.nodes)
      (e.mapOptions f s).2.nodes →
    ∀ glue, Replays skips element? glue tokens (Element.Copied · (e.mapOptions f s).2.copied)

/-- Whether the tokens of the symbols of a set are replayed as the trees of their copies. -/
def Element.SetReplayed (f : σ → Element → σ × Options) (skips : Nat → Bool)
    (element? : Nat → Option Element) (es : List Element) : Prop :=
  ∀ (s : σ) {i : Nat} {ts : List TokenTree} {tokens : List Token}, Element.SetSpelled i ts es →
    Standing (Element.listNodes es) i ts tokens →
    Guide skips element? i (widths ts)
      (skippedIn (Element.listNodes (Element.mapListOptions f s es).2))
      (Element.listNodes (Element.mapListOptions f s es).2) →
    ∀ glue, Replays skips element? glue tokens
      (Element.SetCopied · (Element.allCopied (Element.mapListOptions f s es).2))

/-- Whether the tokens of alternatives are replayed as the trees of their copies. -/
def Alt.AllReplayed (f : σ → Element → σ × Options) (skips : Nat → Bool)
    (element? : Nat → Option Element) (as : List Alt) : Prop :=
  ∀ (s : σ) {i : Nat} {ts : List TokenTree} {tokens : List Token}, Alt.AllSpelled i ts as →
    Alt.allProper as = true → Standing (Alt.listNodes as) i ts tokens →
    Guide skips element? i (widths ts)
      ((Alt.mapListOptions f s as).2.flatMap (fun a => a.options.extent.toList) ++
        skippedIn (Alt.listNodes (Alt.mapListOptions f s as).2))
      (Alt.listNodes (Alt.mapListOptions f s as).2) →
    ∀ glue, Replays skips element? glue tokens
      (Alt.AllCopied · (Alt.allCopied (Alt.mapListOptions f s as).2))

namespace Element.Replayed

theorem block {alts : List Alt} {options : Options} {extent : Extent} (hf : Marking f)
    (halts : Alt.AllReplayed f skips element? alts) :
    (Element.block alts options extent).Replayed f skips element? := by
  intro s i ts tokens h hproper hstanding hguide glue
  rw [Element.Spelled] at h
  obtain ⟨rfl, -, opened, closed, body, rfl, hspelled⟩ := h
  obtain ⟨first, inner, last, rfl, hfirst, hinner, hlast⟩ := hstanding.parenthesis
  have hproper' : Alt.allProper alts = true := (Bool.or_false _).symm.trans hproper
  have hinside := Alt.AllSpelled.inside hf.extent alts (f s (.block alts .none extent)).1 hspelled
  rw [show widths [group .parenthesis opened closed body] = widths body + 2 by simp] at hguide
  have hbody := halts _ hspelled hproper' (hinner.subset (List.subset_cons_self ..))
    (hguide.inner rfl (Nat.le_add_right ..) (by omega)) false
  refine (replays_parenthesis opened closed hguide (hinside.cons rfl) hfirst hlast hbody
    glue).mono ?_
  rintro us ⟨body', rfl, hcopied⟩
  have hnone := hf.other s (.block alts .none extent) rfl
  show Element.Copied _ (.block _ (.ofEntries (f s (.block alts .none extent)).2.entries) .nowhere)
  rw [hnone]
  exact .block hcopied

theorem ruleRef (hf : Marking f) (ref : RuleRef) :
    (Element.ruleRef ref).Replayed f skips element? := by
  obtain ⟨name, args, options, extent⟩ := ref
  intro s i ts tokens h hproper hstanding hguide glue
  rw [Element.Spelled] at h
  obtain ⟨hname, hextent, htruth, p, front, back, rfl, hargs, hoptions⟩ := h
  have hstart : extent.start = i := congrArg Extent.start hextent
  have hreference := Guide.reference hguide rfl hstart hoptions
    (congrArg Option.toList (hf.extent s _)) (by omega) (by simp; omega)
  obtain ⟨_, _, -, -, hback⟩ := Standing.append
    (show Standing _ i ((leaf (.ident name) p :: front) ++ back) tokens from hstanding)
  have hindex : i + widths (leaf (.ident name) p :: front) = i + 1 + widths front := by
    simp [Nat.add_assoc]
  obtain ⟨mark, hmark⟩ := hf.exists_mark s (e := .ruleRef ⟨name, args, options, extent⟩) rfl
    (fun _ _ heq => by cases heq) rfl hoptions (hindex ▸ hback)
  cases hargs with
  | none =>
      refine (replays_reference rfl hstanding hmark hstart hoptions hreference glue).mono ?_
      rintro us rfl
      exact .ruleRef hname htruth .none hmark
  | some _ opened closed body =>
      refine (replays_arguments hstanding (show EntriesPrinted (Element.ruleRef ⟨_, _, _, _⟩).marks
        mark from hmark) hstart hoptions hreference glue).mono ?_
      rintro us rfl
      exact .ruleRef hname htruth (.some opened closed body) hmark

theorem tokenRef (hf : Marking f) (name : String) (options : Options) (extent : Extent) :
    (Element.tokenRef name options extent).Replayed f skips element? := by
  intro s i ts tokens h hproper hstanding hguide glue
  rw [Element.Spelled] at h
  obtain ⟨hname, rfl, p, rest, rfl, hoptions⟩ := h
  have hreference := Guide.reference hguide rfl rfl hoptions
    (congrArg Option.toList (hf.extent s _)) (by omega) (by simp; omega)
  obtain ⟨_, _, -, -, -, hrest⟩ := hstanding.single rfl
  obtain ⟨mark, hmark⟩ :=
    hf.exists_mark s (e := .tokenRef name options _) rfl (fun _ _ heq => by cases heq) rfl hoptions hrest
  refine (replays_reference rfl hstanding hmark rfl hoptions hreference glue).mono ?_
  rintro us rfl
  exact .tokenRef hname hmark

theorem quotation (hf : Marking f) (literal : Quotation) :
    (Element.quotation literal).Replayed f skips element? := by
  obtain ⟨value, text, options, extent⟩ := literal
  intro s i ts tokens h hproper hstanding hguide glue
  rw [Element.Spelled] at h
  obtain ⟨hextent, t, rest, rfl, ⟨hvalue, hempty, p, rfl⟩, hoptions⟩ := h
  have hstart : extent.start = i := congrArg Extent.start hextent
  have hreference := Guide.reference hguide rfl hstart hoptions
    (congrArg Option.toList (hf.extent s _)) (by omega) (by simp; omega)
  obtain ⟨_, _, -, -, -, hrest⟩ := hstanding.single rfl
  obtain ⟨mark, hmark⟩ := hf.exists_mark s (e := .quotation ⟨value, text, options, extent⟩) rfl
    (fun _ _ heq => by cases heq) rfl hoptions hrest
  refine (replays_reference rfl hstanding hmark hstart hoptions hreference glue).mono ?_
  rintro us rfl
  exact .quotation hvalue hempty hmark

theorem range (first last : Quotation) (extent : Extent) :
    (Element.range first last extent).Replayed f skips element? := by
  intro s i ts tokens h hproper hstanding hguide glue
  rw [Element.Spelled] at h
  obtain ⟨-, hfirst, -, hlast, -, t, u, joint, p, q, rfl, hfirst', hlast'⟩ := h
  have hleaves : AreLeaves [t, leaf (.punct '.' true) p, leaf (.punct '.' joint) q, u] := by
    obtain ⟨-, -, p', rfl⟩ := hfirst'
    obtain ⟨-, -, q', rfl⟩ := hlast'
    exact (((AreLeaves.nil.literal _ q').sign (by decide) joint q).sign (by decide) true p).literal
      _ p'
  refine (replays_plain (hleaves.isPlain hstanding.sound) hstanding.numbered
    (hguide.bare rfl rfl) glue).mono ?_
  rintro us rfl
  exact .range (hfirst'.copied hfirst) (hlast'.copied hlast)

theorem wildcard (hf : Marking f) (options : Options) (extent : Extent) :
    (Element.wildcard options extent).Replayed f skips element? := by
  intro s i ts tokens h hproper hstanding hguide glue
  rw [Element.Spelled] at h
  obtain ⟨rfl, joint, p, rest, rfl, hoptions⟩ := h
  have hreference := Guide.reference hguide rfl rfl hoptions
    (congrArg Option.toList (hf.extent s _)) (by omega) (by simp; omega)
  obtain ⟨_, _, -, -, -, hrest⟩ := hstanding.single rfl
  have hmarks := hf.printable_marks s (e := .wildcard options _) rfl rfl hoptions hrest
  refine (replays_wildcard hstanding hmarks rfl hoptions hreference glue).mono ?_
  rintro us ⟨joint', q, mark, rfl, hmark⟩
  exact .wildcard hmark

theorem not {operand : Element} {extent : Extent} (hf : Marking f)
    (hreplayed : operand.Replayed f skips element?) :
    (Element.not operand extent).Replayed f skips element? := by
  intro s i ts tokens h hproper hstanding hguide glue
  rw [Element.Spelled] at h
  obtain ⟨-, hshape, joint, p, rest, rfl, hoperand⟩ := h
  have hproper' : (operand.isProper || operand.isSet) = true := by
    rcases hshape with ⟨elements, extent, rfl⟩ | hnegatable
    · rfl
    · rw [Element.isProper_of_isNegatable hnegatable]
      rfl
  have hinside := Element.Spelled.inside hf.extent operand (f s (.not operand extent)).1 hoperand
  refine (replays_front (AreLeaves.nil.sign (by decide) joint p) hstanding hguide rfl rfl hinside
    (fun hstanding hguide => hreplayed _ hoperand hproper'
      (hstanding.subset (List.subset_cons_self ..)) hguide) glue).mono ?_
  rintro us ⟨back, rfl, hback⟩
  refine .not ?_ hback
  rcases hshape with ⟨elements, extent, rfl⟩ | hnegatable
  · exact .inl ⟨_, _, rfl⟩
  · refine .inr ?_
    rw [Element.isNegatable_recast, Element.isNegatable_mapOptions]
    exact hnegatable

theorem set {elements : List Element} {extent : Extent} (hf : Marking f)
    (hreplayed : Element.SetReplayed f skips element? elements) :
    (Element.set elements extent).Replayed f skips element? := by
  intro s i ts tokens h hproper hstanding hguide glue
  rw [Element.Spelled] at h
  obtain ⟨-, opened, closed, body, rfl, helements⟩ := h
  obtain ⟨first, inner, last, rfl, hfirst, hinner, hlast⟩ := hstanding.parenthesis
  have hinside := Element.SetSpelled.inside hf.extent elements (f s (.set elements extent)).1
    helements
  rw [show widths [group .parenthesis opened closed body] = widths body + 2 by simp] at hguide
  have hbody := hreplayed _ helements (hinner.subset (List.subset_cons_self ..))
    (hguide.inner rfl (Nat.le_add_right ..) (by omega)) false
  refine (replays_parenthesis opened closed hguide (hinside.cons rfl) hfirst hlast hbody
    glue).mono ?_
  rintro us ⟨body', rfl, hcopied⟩
  exact .set hcopied

theorem suffixed {suffix : Suffix} {greedy : Bool} {element : Element} {extent : Extent}
    (hf : Marking f) (hreplayed : element.Replayed f skips element?) :
    (Element.suffixed suffix greedy element extent).Replayed f skips element? := by
  intro s i ts tokens h hproper hstanding hguide glue
  rw [Element.Spelled] at h
  obtain ⟨-, hunsuffixed, front, back, rfl, helement, hsuffix, haction⟩ := h
  obtain ⟨before, behind, rfl, hbefore, hbehind⟩ := hstanding.append
  have hinside := Element.Spelled.inside hf.extent element
    (f s (.suffixed suffix greedy element extent)).1 helement
  rw [TokenTree.widths_append] at hguide
  have hproper' : element.isProper = true := (Bool.or_false _).symm.trans hproper
  have hfirst := hreplayed _ helement (by rw [hproper']; rfl)
    (hbefore.subset (List.subset_cons_self ..)) (hguide.inner rfl (Nat.le_refl _) (by omega)) glue
  have hsign := fun glue => replays_plain (hsuffix.areLeaves.isPlain hbehind.sound)
    hbehind.numbered (fun j hj hj' => hguide.plain (hinside.cons rfl) (by omega) (by omega)
      (.inr hj)) glue
  refine (hfirst.append hsign).mono ?_
  rintro us ⟨front', back', rfl, hfront, rfl⟩
  refine .suffixed ?_ hfront hsuffix fun hoptional => ?_
  · rw [Element.isUnsuffixed_recast, Element.isUnsuffixed_mapOptions]
    exact hunsuffixed
  · rw [Element.isAction_recast, Element.isAction_mapOptions]
    exact haction hoptional

theorem labeled {isList : Bool} {label : String} {token : Nat} {element : Element} {extent : Extent}
    (hf : Marking f) (hreplayed : element.Replayed f skips element?) :
    (Element.labeled isList label token element extent).Replayed f skips element? := by
  intro s i ts tokens h hproper hstanding hguide glue
  rw [Element.Spelled] at h
  obtain ⟨-, -, hbare, p, sign, rest, rfl, hsign, helement⟩ := h
  have hindex : i + widths (leaf (.ident label) p :: sign) = i + 1 + widths sign := by
    simp [Nat.add_assoc]
  rw [← hindex] at helement
  have hinside := Element.Spelled.inside hf.extent element
    (f s (.labeled isList label token element extent)).1 helement
  have hproper' : element.isProper = true := (Bool.or_false _).symm.trans hproper
  refine (replays_front (hsign.areLeaves.word label p) hstanding hguide rfl rfl hinside
    (fun hstanding hguide => hreplayed _ helement (by rw [hproper']; rfl)
      (hstanding.subset (List.subset_cons_self ..)) hguide) glue).mono ?_
  rintro us ⟨back, rfl, hback⟩
  refine .labeled ?_ hsign hback
  rw [Element.isBare_recast, Element.isBare_mapOptions]
  exact hbare

theorem action (code : Snippet) : (Element.action code).Replayed f skips element? := by
  intro s i ts tokens h hproper hstanding hguide glue
  rw [Element.Spelled] at h
  obtain ⟨hoptions, hextent, opened, closed, body, rfl, htext⟩ := h
  refine (replays_plain ?_ hstanding.numbered (hguide.bare rfl rfl) glue).mono ?_
  · exact List.forall_mem_cons.mpr ⟨TokenTree.isPlain_brace hstanding.sound, nofun⟩
  · rintro us rfl
    show Element.Copied _ (.action ⟨code.text, .ofEntries code.options.entries, .nowhere⟩)
    rw [htext, hoptions]
    exact .action

theorem predicate (hf : Marking f) (code : Snippet) :
    (Element.predicate code).Replayed f skips element? := by
  intro s i ts tokens h hproper hstanding hguide glue
  rw [Element.Spelled] at h
  obtain ⟨hextent, opened, closed, body, joint, p, rest, rfl, htext, hoptions⟩ := h
  refine (replays_plain ?_ hstanding.numbered (hguide.bare rfl rfl) glue).mono ?_
  · refine List.forall_mem_cons.mpr ⟨TokenTree.isPlain_brace hstanding.sound, ?_⟩
    exact (hoptions.areLeaves.sign (by decide) joint p).isPlain hstanding.sound.tail
  · rintro us rfl
    have hsame := hf.other s (.predicate code) rfl
    show Element.Copied _ (.predicate
      ⟨code.text, .ofEntries (f s (.predicate code)).2.entries, .nowhere⟩)
    rw [hsame, htext]
    exact .predicate hoptions.kept

theorem command (name : String) (arg : Option String) (extent : Extent) :
    (Element.command name arg extent).Replayed f skips element? := by
  intro s i ts tokens h hproper hstanding hguide glue
  rw [Element.Spelled] at h
  obtain ⟨mark, p, rest, rfl, hextent, hmark, harg⟩ := h
  have hcopied := harg.copied hextent rfl ((Bool.or_false _).symm.trans hproper)
  obtain ⟨hsound, hsound'⟩ := TokenTree.allSound_append.mp hstanding.sound
  refine (replays_plain ?_ hstanding.numbered (hguide.bare rfl rfl) glue).mono ?_
  · exact List.forall_mem_append.mpr ⟨hmark.areLeaves.isPlain hsound,
      List.forall_mem_cons.mpr ⟨hsound'.word.1, hcopied.isPlain hsound'.tail⟩⟩
  · rintro us rfl
    exact .command hmark hcopied

theorem epsilon (extent : Extent) : (Element.epsilon extent).Replayed f skips element? := by
  intro s i ts tokens h
  rw [Element.Spelled] at h
  exact h.elim

end Element.Replayed

mutual
/-- The tokens of an element are replayed as the trees of its copy. -/
theorem Element.Spelled.replays (hf : Marking f) : ∀ e : Element, e.Replayed f skips element?
  | .block alts _ _ => .block hf (Alt.AllSpelled.replays hf alts)
  | .ruleRef ref => .ruleRef hf ref
  | .tokenRef name options extent => .tokenRef hf name options extent
  | .quotation literal => .quotation hf literal
  | .range first last extent => .range first last extent
  | .wildcard options extent => .wildcard hf options extent
  | .not operand _ => .not hf (Element.Spelled.replays hf operand)
  | .set elements _ => .set hf (Element.SetSpelled.replays hf elements)
  | .suffixed _ _ element _ => .suffixed hf (Element.Spelled.replays hf element)
  | .labeled _ _ _ element _ => .labeled hf (Element.Spelled.replays hf element)
  | .action code => .action code
  | .predicate code => .predicate hf code
  | .command name arg extent => .command name arg extent
  | .epsilon extent => .epsilon extent

theorem Element.ListSpelled.replays (hf : Marking f) : ∀ (es : List Element) (s : σ) {i : Nat}
    {ts : List TokenTree} {tokens : List Token}, Element.ListSpelled i ts es →
      Element.allProper es = true → Standing (Element.listNodes es) i ts tokens →
      Guide skips element? i (widths ts)
        (skippedIn (Element.listNodes (Element.mapListOptions f s es).2))
        (Element.listNodes (Element.mapListOptions f s es).2) →
      ∀ glue, Replays skips element? glue tokens
        (Element.ListCopied · (Element.allCopied (Element.mapListOptions f s es).2))
  | [], s, i, ts, tokens, h, hproper, hstanding, hguide, glue => by
      rw [Element.ListSpelled] at h
      subst h
      rw [hstanding.numbered.nil]
      exact ⟨[], "", glue, .nil glue, .nil glue, .nil⟩
  | e :: es, s, i, ts, tokens, h, hproper, hstanding, hguide, glue => by
      rw [Element.ListSpelled] at h
      obtain ⟨front, back, rfl, he, -, hes⟩ := h
      obtain ⟨hproper, hlast, hproper'⟩ := Element.allProper_cons.mp hproper
      obtain ⟨before, behind, rfl, hbefore, hbehind⟩ := hstanding.append
      rw [TokenTree.widths_append] at hguide
      obtain ⟨hfirst, hothers⟩ := hguide.split (Element.Spelled.inside hf.extent e s he)
        (Element.ListSpelled.inside hf.extent es (e.mapOptions f s).1 hes) (Nat.le_refl _)
        (Nat.le_refl _) (by omega)
        (fun x => by
          rw [Element.mapListOptions_cons, Element.listNodes, skippedIn_append, List.mem_append])
        (fun x => by rw [Element.mapListOptions_cons, Element.listNodes, List.mem_append])
      refine ((Element.Spelled.replays hf e s he (by rw [hproper]; rfl)
        (hbefore.subset (List.subset_append_left ..)) hfirst glue).append fun glue =>
        Element.ListSpelled.replays hf es _ hes hproper'
          (hbehind.subset (List.subset_append_right ..)) hothers glue).mono ?_
      rintro us ⟨front', back', rfl, hfront, hback⟩
      refine .cons ?_ ?_ hfront hback
      · rw [Element.isSet_recast, Element.isSet_mapOptions]
        exact Element.isSet_eq_false hproper
      · rw [Element.isCommand_recast, Element.isCommand_mapOptions]
        exact fun hcommand => Element.isCommand_of_mem_allCopied
          (Element.isCommand_of_mem_mapListOptions _ (hlast hcommand))

theorem Element.SetSpelled.replays (hf : Marking f) : ∀ es : List Element,
    Element.SetReplayed f skips element? es
  | [], s, i, ts, tokens, h, hstanding, hguide, glue => by
      rw [Element.SetSpelled] at h
      exact h.elim
  | e :: es, s, i, ts, tokens, h, hstanding, hguide, glue => by
      rw [Element.SetSpelled] at h
      obtain ⟨hnegatable, front, back, rfl, he, hrest⟩ := h
      have hproper : (e.isProper || e.isSet) = true := by
        rw [Element.isProper_of_isNegatable hnegatable]
        rfl
      have hnegatable' : Cursor.isNegatable (e.mapOptions f s).2.copied = true := by
        rw [Element.copied, Element.isNegatable_recast, Element.isNegatable_mapOptions]
        exact hnegatable
      have hinside := Element.Spelled.inside hf.extent e s he
      rcases hrest with ⟨rfl, rfl⟩ | ⟨joint, p, rest, rfl, hes⟩
      · obtain ⟨before, behind, rfl, hbefore, hbehind⟩ := hstanding.append
        rw [TokenTree.widths_append] at hguide
        obtain ⟨hfirst, -⟩ := hguide.split hinside (Inside.nil (i + widths front) 0) (Nat.le_refl _)
          (Nat.le_refl _) (by omega) (fun x => by simp [Element.mapListOptions, Element.listNodes])
          (fun x => by simp [Element.mapListOptions, Element.listNodes])
        rw [hbehind.numbered.nil, List.append_nil]
        exact (Element.Spelled.replays hf e s he hproper
          (hbefore.subset (List.subset_append_left ..)) hfirst glue).mono fun us hus =>
          .last hnegatable' hus
      · refine (replays_bar hstanding hguide hinside
          (Element.SetSpelled.inside hf.extent es (e.mapOptions f s).1 hes) (fun x => ?_) (fun x => ?_)
          (fun hstanding hguide => Element.Spelled.replays hf e s he hproper hstanding hguide)
          (fun hstanding hguide => Element.SetSpelled.replays hf es _ hes hstanding hguide)
          glue).mono ?_
        · rw [Element.mapListOptions_cons, Element.listNodes, skippedIn_append, List.mem_append]
        · rw [Element.mapListOptions_cons, Element.listNodes, List.mem_append]
        · rintro us ⟨front', back, rfl, hfront, hback⟩
          exact .cons hnegatable' hfront hback

theorem Alt.Spelled.replays (hf : Marking f) : ∀ (a : Alt) (s : σ) {i : Nat}
    {ts : List TokenTree} {tokens : List Token}, a.Spelled i ts → a.isProper = true →
      Standing a.nodes i ts tokens →
      Guide skips element? i (widths ts) (a.mapOptions f s).2.optionExtents
        (a.mapOptions f s).2.nodes →
      ∀ glue, Replays skips element? glue tokens (Alt.Copied · (a.mapOptions f s).2.copied)
  | ⟨elements, options, label, extent, info⟩, s, i, ts, tokens, h, hproper, hstanding, hguide,
      glue => by
      rw [Alt.Spelled] at h
      obtain ⟨-, front, body, back, rfl, hoptions, hlabel, -, hbody⟩ := h
      obtain ⟨others, behind, rfl, hothers, hbehind⟩ := hstanding.append
      obtain ⟨before, inner, rfl, hbefore, hinner⟩ := hothers.append
      rw [Alt.optionExtents_eq, TokenTree.widths_append, TokenTree.widths_append] at hguide
      rw [TokenTree.widths_append] at hbehind
      -- options are skipped, the label is written as it is
      have hfront : Replays skips element? glue before (· = []) :=
        ⟨[], "", glue, .nil glue, hoptions.adds hbefore.numbered (fun x hx j hj hj' => by
          have := hoptions.inside x hx
          exact (hguide.skips_iff j (by omega) (by omega)).mpr
            ⟨x, List.mem_append_left _ hx, Extent.covers_iff.mpr ⟨hj, hj'⟩⟩) glue, rfl⟩
      have hinside : Inside (i + widths front) (widths body)
          (skippedIn (Element.listNodes (Element.mapListOptions f s elements).2))
          (Element.listNodes (Element.mapListOptions f s elements).2) := by
        rcases hbody with ⟨-, rfl⟩ | ⟨-, -, hes⟩
        · exact (Inside.nil _ _).cons rfl
        · exact Element.ListSpelled.inside hf.extent elements s hes
      have hoptions' : Inside i (widths front) options.extent.toList [] :=
        ⟨fun x hx => hoptions.inside x hx, nofun⟩
      have hlabel' := fun glue => replays_plain (hlabel.areLeaves.isPlain hbehind.sound)
        hbehind.numbered (fun j hj hj' => hguide.plain
          ((hoptions'.widen (i := i) (n := widths front + widths body) (Nat.le_refl _)
            (by omega)).append (hinside.widen (by omega) (by omega))) (by omega) (by omega)
          (.inr hj)) glue
      obtain ⟨-, hguide'⟩ := hguide.split hoptions' hinside (Nat.le_refl _) (Nat.le_refl _)
        (by omega) (fun x => List.mem_append) (fun x => by simp [Alt.mapOptions, Alt.nodes])
      rcases hbody with ⟨rfl, rfl⟩ | ⟨-, hne, hes⟩
      · rw [hinner.numbered.nil, List.append_nil]
        refine (hfront.append hlabel').mono ?_
        rintro us ⟨_, _, rfl, rfl, rfl⟩
        exact .empty hlabel.copied
      · refine ((hfront.append fun glue => Element.ListSpelled.replays hf elements s hes hproper
          hinner hguide' glue).append hlabel').mono ?_
        rintro us ⟨_, _, rfl, ⟨_, inner', rfl, rfl, hinner'⟩, rfl⟩
        cases elements with
        | nil => exact absurd rfl hne
        | cons e es => exact .written hinner' hlabel.copied

theorem Alt.AllSpelled.replays (hf : Marking f) : ∀ as : List Alt,
    Alt.AllReplayed f skips element? as
  | [], s, i, ts, tokens, h, hproper, hstanding, hguide, glue => by
      rw [Alt.AllSpelled] at h
      exact h.elim
  | a :: as, s, i, ts, tokens, h, hproper, hstanding, hguide, glue => by
      rw [Alt.AllSpelled] at h
      obtain ⟨front, back, rfl, ha, hrest⟩ := h
      obtain ⟨hproper₁, hproper₂⟩ := Bool.and_eq_true_iff.mp hproper
      have hinside := Alt.Spelled.inside hf.extent a s ha
      rcases hrest with ⟨rfl, rfl⟩ | ⟨joint, p, rest, rfl, -, has⟩
      · obtain ⟨before, behind, rfl, hbefore, hbehind⟩ := hstanding.append
        rw [TokenTree.widths_append] at hguide
        obtain ⟨hfirst, -⟩ := hguide.split hinside (Inside.nil (i + widths front) 0) (Nat.le_refl _)
          (Nat.le_refl _) (by omega)
          (fun x => by simp [Alt.mapListOptions, Alt.listNodes, Alt.optionExtents_eq])
          (fun x => by simp [Alt.mapListOptions, Alt.listNodes])
        rw [hbehind.numbered.nil, List.append_nil]
        exact (Alt.Spelled.replays hf a s ha hproper₁
          (hbefore.subset (List.subset_append_left ..)) hfirst glue).mono fun us hus => .last hus
      · refine (replays_bar hstanding hguide hinside
          (Alt.AllSpelled.inside hf.extent as (a.mapOptions f s).1 has) (fun x => ?_) (fun x => ?_)
          (fun hstanding hguide => Alt.Spelled.replays hf a s ha hproper₁ hstanding hguide)
          (fun hstanding hguide => Alt.AllSpelled.replays hf as _ has hproper₂ hstanding hguide)
          glue).mono ?_
        · rw [Alt.mapListOptions_cons, Alt.listNodes, List.flatMap_cons, Alt.optionExtents_eq]
          simp only [skippedIn_append, List.mem_append]
          exact or_or_or_comm
        · rw [Alt.mapListOptions_cons, Alt.listNodes, List.mem_append]
        · rintro us ⟨front', back, rfl, hfront, hback⟩
          exact .cons hfront hback
end

end Copies

end GrammarCompiler
