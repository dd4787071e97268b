import GrammarCompiler.Proofs.Ast.Copied
import GrammarCompiler.Proofs.Ast.Replay

/-!
# Reading copies

If the trees of a copy can be read at all, they are read as the copy (`Cursor.yields_alts`). Reading
may fail; what it yields if it does not is followed along the descent (`Yields`). A reader may go on
where its part has ended, so what follows must not be something it would take as well (`Follow`).
-/

namespace GrammarCompiler

open TokenTree (leaf group)

/-- If a reader succeeds, its result and the place where it stops are as told. -/
def Yields {α : Type} {P : Cursor → Prop} (x : Except SyntaxError (α × { d // P d }))
    (post : α → Cursor → Prop) : Prop :=
  ∀ a d hd, x = .ok (a, ⟨d, hd⟩) → post a d

namespace Yields

variable {α β : Type} {P Q : Cursor → Prop} {post : α → Cursor → Prop}
  {post' : β → Cursor → Prop}

theorem ok {a : α} {d : Cursor} {hd : P d} (h : post a d) :
    Yields (.ok (a, (⟨d, hd⟩ : { d // P d }))) post := by
  intro b e he heq
  cases heq
  exact h

theorem error {e : SyntaxError} : Yields (P := P) (.error e) post := by
  intro a d hd heq
  cases heq

theorem trivial (x : Except SyntaxError (α × { d // P d })) : Yields x fun _ _ => True :=
  fun _ _ _ _ => True.intro

theorem mono {x : Except SyntaxError (α × { d // P d })} {post' : α → Cursor → Prop}
    (h : Yields x post) (himp : ∀ a d, post a d → post' a d) : Yields x post' :=
  fun a d hd heq => himp a d (h a d hd heq)

/-- Reading on. -/
theorem bind {x : Except SyntaxError (α × { d // P d })}
    {f : α × { d // P d } → Except SyntaxError (β × { d // Q d })} (h : Yields x post)
    (hnext : ∀ a d hd, post a d → Yields (f (a, ⟨d, hd⟩)) post') : Yields (x >>= f) post' := by
  cases x with
  | error e => exact error
  | ok r =>
      obtain ⟨a, d, hd⟩ := r
      exact hnext a d hd (h a d hd rfl)

end Yields

/-! ## What follows -/

namespace TokenTree

def beginsElement : TokenTree → Bool
  | .group .bracket _ _ _ => false
  | .leaf (.punct c _) _ => c == '~' || c == '.'
  | _ => true

/-- Whether a lexer command may begin with a tree. -/
def beginsCommand : TokenTree → Bool
  | .leaf (.punct c _) _ => c == '-' || c == ','
  | _ => false

/-- Whether a tree ends the elements of an alternative. -/
def endsElements : TokenTree → Bool
  | .leaf (.punct c _) _ => c == '|' || c == ';' || c == '#'
  | _ => false

def endsAlt : TokenTree → Bool
  | .leaf (.punct c _) _ => c == '|' || c == ';'
  | _ => false

def endsAlts : TokenTree → Bool
  | .leaf (.punct c _) _ => c == ';'
  | _ => false

/-- Whether trees do not begin with some punctuation. -/
def Lacks (c : Char) (ts : List TokenTree) : Prop :=
  ∀ joint p, ts.head? ≠ some (leaf (.punct c joint) p)

/-- Trees that begin with one sign do not begin with another. -/
theorem lacks_of_not_lacks {c d : Char} {ts : List TokenTree} (h : ¬Lacks c ts) (hne : c ≠ d) :
    Lacks d ts := by
  intro joint' q hhead'
  refine h fun joint p hhead => ?_
  rw [hhead] at hhead'
  simp only [Option.some.injEq, leaf.injEq, Leaf.punct.injEq] at hhead'
  exact hne hhead'.1.1

theorem lacks_cons {c : Char} {t : TokenTree} {ts : List TokenTree}
    (h : ∀ joint p, t ≠ leaf (.punct c joint) p) : Lacks c (t :: ts) :=
  fun joint p hhead => h joint p (Option.some.inj hhead)

end TokenTree

open TokenTree (Lacks lacks_cons lacks_of_not_lacks)

/-- Whether trees may stand behind an element: another element, a lexer command, or what ends an
alternative. -/
def Follow (ts : List TokenTree) : Prop :=
  ∀ t ∈ ts.head?, t.beginsElement = true ∨ t.beginsCommand = true ∨ t.endsElements = true

/-- Whether trees are empty or begin as demanded. -/
def EndsBy (p : TokenTree → Bool) (ts : List TokenTree) : Prop :=
  ∀ t ∈ ts.head?, p t = true

theorem endsBy_nil (p : TokenTree → Bool) : EndsBy p [] := nofun

theorem endsBy_cons {p : TokenTree → Bool} {t : TokenTree} {ts : List TokenTree} (h : p t = true) :
    EndsBy p (t :: ts) := by
  intro u hu
  obtain rfl := Option.some.inj hu
  exact h

section Heads

variable {ts : List TokenTree} {c : Char}

theorem Follow.lacks (h : Follow ts) (hc : "~.-,|;#".toList.contains c = false) : Lacks c ts := by
  intro joint p hhead
  rw [show "~.-,|;#".toList = ['~', '.', '-', ',', '|', ';', '#'] from rfl] at hc
  simp only [List.contains_cons, List.contains_nil, Bool.or_eq_false_iff] at hc
  rcases h _ hhead with h | h | h
  · simp [TokenTree.beginsElement, hc] at h
  · simp [TokenTree.beginsCommand, hc] at h
  · simp [TokenTree.endsElements, hc] at h

theorem EndsBy.lacks {p : TokenTree → Bool} (h : EndsBy p ts)
    (hc : ∀ joint q, p (leaf (.punct c joint) q) = false) : Lacks c ts := by
  intro joint q hhead
  have := h _ hhead
  rw [hc] at this
  cases this

theorem EndsBy.follow (h : EndsBy TokenTree.endsElements ts) : Follow ts :=
  fun t ht => .inr (.inr (h t ht))

theorem EndsBy.endsAlt (h : EndsBy TokenTree.endsAlts ts) : EndsBy TokenTree.endsAlt ts := by
  intro t ht
  have := h t ht
  unfold TokenTree.endsAlts at this
  split at this
  · exact Bool.or_eq_true_iff.mpr (.inr this)
  · cases this

theorem EndsBy.endsElements (h : EndsBy TokenTree.endsAlt ts) : EndsBy TokenTree.endsElements ts := by
  intro t ht
  have := h t ht
  unfold TokenTree.endsAlt at this
  split at this
  · exact Bool.or_eq_true_iff.mpr (.inl this)
  · cases this

end Heads

/-! ## Leaves and groups -/

namespace Cursor

variable {c : Cursor} {rest : List TokenTree} {p : Text.Position}

@[simp]
theorem trees_behind (c : Cursor) (rest : List TokenTree) (width : Nat) :
    (c.behind rest width).trees = rest := rfl

theorem spells_of_lacks {char : Char} {cs : List Char} {ts : List TokenTree} (h : Lacks char ts) :
    spells (char :: cs) ts = false := by
  cases ts with
  | nil => cases cs <;> rfl
  | cons t ts =>
      cases t with
      | group => cases cs <;> rfl
      | leaf token p =>
          cases token with
          | punct d joint =>
              have hne : (char == d) = false := by
                rw [beq_eq_false_iff_ne]
                rintro rfl
                exact h joint p rfl
              cases cs <;> simp [spells, hne]
          | _ => cases cs <;> rfl

theorem atPunct_of_lacks {char : Char} (cs : List Char) (h : Lacks char c.trees) :
    c.atPunct (String.ofList (char :: cs)) = false := by
  unfold atPunct
  rw [String.toList_ofList]
  exact spells_of_lacks h

theorem punct?_of_lacks {char : Char} (h : Lacks char c.trees) : c.punct? char = none := by
  cases hpunct : c.punct? char with
  | none => rfl
  | some found =>
      obtain ⟨-, joint, q, htakes⟩ := takes_punct? hpunct
      exact absurd (by rw [htakes.1]; rfl) (h joint q)

theorem pair?_of_lacks {first second : Char} (h : Lacks first c.trees) :
    c.pair? first second = none := by
  unfold pair?
  rw [atPunct_of_lacks [second] h]
  rfl

theorem punct_of_trees {char : Char} {joint : Bool}
    (h : c.trees = leaf (.punct char joint) p :: rest) :
    c.punct char = .ok (c.index, ⟨c.behind rest 1, size_behind_lt h 1⟩) := by
  unfold punct
  split
  · next d joint' q rest' h' =>
      rw [h] at h'
      cases h'
      exact if_pos rfl
  · next hne => exact absurd h (hne char joint p rest)

theorem punct?_of_trees {char : Char} {joint : Bool}
    (h : c.trees = leaf (.punct char joint) p :: rest) :
    c.punct? char = some (c.index, ⟨c.behind rest 1, size_behind_lt h 1⟩) := by
  unfold punct?
  rw [punct_of_trees h]
  rfl

theorem pair?_of_trees {first second : Char} {joint : Bool} {q : Text.Position}
    (h : c.trees = leaf (.punct first true) p :: leaf (.punct second joint) q :: rest) :
    ∃ i d hd, c.pair? first second = some (i, ⟨d, hd⟩) ∧ d.trees = rest := by
  have hat : c.atPunct (String.ofList [first, second]) = true := by
    unfold atPunct
    rw [String.toList_ofList, h]
    simp [spells]
  unfold pair?
  rw [if_pos hat, punct?_of_trees h]
  dsimp only [bind, Option.bind]
  rw [punct?_of_trees (trees_behind c _ 1)]
  exact ⟨_, _, _, rfl, rfl⟩

theorem yields_ident {text : String} (h : c.trees = leaf (.ident text) p :: rest) :
    Yields c.ident fun a d => a.1 = text ∧ d.trees = rest := by
  rintro ⟨name, i⟩ d hd hread
  obtain ⟨-, q, htakes⟩ := takes_ident hread
  have heq := htakes.1.symm.trans h
  obtain ⟨⟨hname, -⟩, hrest⟩ : (name = text ∧ q = p) ∧ d.trees = rest := by simpa using heq
  exact ⟨hname, hrest⟩

theorem yields_punct {char char' : Char} {joint : Bool}
    (h : c.trees = leaf (.punct char' joint) p :: rest) :
    Yields (c.punct char) fun _ d => d.trees = rest := by
  intro i d hd hread
  obtain ⟨-, joint', q, htakes⟩ := takes_punct hread
  have := htakes.1.symm.trans h
  simp_all

/-! ## Options -/

/-- What stands between the key of an option and what follows. A sign may have lost its value; then
reading fails. -/
inductive AssignmentRead : String → List TokenTree → Prop
  | nothing : AssignmentRead "" []
  | value {value : String} {ts : List TokenTree} (joint : Bool) (p : Text.Position) :
      ValueSpelled value ts → AssignmentRead value (leaf (.punct '=' joint) p :: ts)
  | lost (value : String) (joint : Bool) (p : Text.Position) :
      AssignmentRead value [leaf (.punct '=' joint) p]

/-- Options behind their opening bracket, together with the closing one. -/
inductive EntriesRead : List (String × String) → List TokenTree → Prop
  | last {key value : String} {ts : List TokenTree} {joint : Bool} {p q : Text.Position} :
      AssignmentRead value ts →
      EntriesRead [(key, value)] (leaf (.ident key) p :: (ts ++ [leaf (.punct '>' joint) q]))
  | cons {key value : String} {ts us : List TokenTree} {joint : Bool} {p q : Text.Position}
      {entries : List (String × String)} : AssignmentRead value ts → EntriesRead entries us →
      EntriesRead ((key, value) :: entries)
        (leaf (.ident key) p :: (ts ++ leaf (.punct ',' joint) q :: us))

/-- Options, if there are any. -/
inductive OptionsRead : List (String × String) → List TokenTree → Prop
  | none : OptionsRead [] []
  | some {entries : List (String × String)} {ts : List TokenTree} (joint : Bool)
      (p : Text.Position) : EntriesRead entries ts →
      OptionsRead entries (leaf (.punct '<' joint) p :: ts)

end Cursor

open Cursor (AssignmentRead EntriesRead OptionsRead)

theorem AssignmentSpelled.read {value : String} {ts : List TokenTree}
    (h : AssignmentSpelled value ts) : AssignmentRead value ts := by
  cases h with
  | nothing => exact .nothing
  | value joint p hvalue => exact .value joint p hvalue

theorem EntriesSpelled.read : ∀ {entries : List (String × String)} {ts : List TokenTree},
    EntriesSpelled entries ts → EntriesRead entries ts
  | [], _, h => h.elim
  | [_], _, h => by
      obtain ⟨assignment, joint, p, q, rfl, hassignment⟩ := h
      exact .last hassignment.read
  | _ :: _ :: _, _, h => by
      obtain ⟨assignment, joint, p, q, rest, rfl, hassignment, hrest⟩ := h
      exact .cons hassignment.read hrest.read

theorem OptionsKept.read {entries : List (String × String)} {ts : List TokenTree}
    (h : OptionsKept entries ts) : OptionsRead entries ts := by
  cases h with
  | none => exact .none
  | some joint p hentries => exact .some joint p hentries.read

theorem ValuePrinted.read {value : String} {joint : Bool} {ts : List TokenTree}
    (h : ValuePrinted value joint ts) :
    AssignmentRead value (leaf (.punct '=' joint) .start :: ts) := by
  cases h with
  | nothing => exact .lost "" true _
  | word => exact .value _ _ (.word _ _)
  | literal hbare =>
      have hvalue := ValueSpelled.literal value .start
      rw [hbare.2] at hvalue
      exact .value _ _ hvalue
  | negative _ hnumber => exact .value _ _ (.negative _ _ _ hnumber)

theorem EntriesPrinted.read {entries : List (String × String)} {ts : List TokenTree}
    (h : EntriesPrinted entries ts) : EntriesRead entries ts := by
  induction h with
  | last _ hvalue => exact .last hvalue.read
  | cons _ hvalue _ ih => exact .cons hvalue.read ih

theorem MarkPrinted.read {entries : List (String × String)} {ts : List TokenTree}
    (h : MarkPrinted entries ts) : OptionsRead entries ts := by
  cases h with
  | nothing => exact .none
  | options hentries => exact .some _ _ hentries.read

/-- Trees begin with the value of an option in one way. -/
theorem ValueSpelled.unique {value value' : String} {ts us more more' : List TokenTree}
    (h : ValueSpelled value ts) (h' : ValueSpelled value' us) (heq : ts ++ more = us ++ more') :
    value = value' ∧ more = more' := by
  cases h <;> cases h' <;> simp_all

/-- Trees begin with what stands behind a key in one way, and not with a sign that lost its value. -/
theorem AssignmentSpelled.unique {value value' : String} {ts us more more' : List TokenTree}
    {c d : Char} {joint joint' : Bool} {p q : Text.Position} (hc : c = ',' ∨ c = '>')
    (hd : d = ',' ∨ d = '>') (h : AssignmentSpelled value ts) (h' : AssignmentRead value' us)
    (heq : ts ++ leaf (.punct c joint) p :: more = us ++ leaf (.punct d joint') q :: more') :
    value = value' ∧ c = d ∧ more = more' := by
  have hne : c ≠ '=' ∧ d ≠ '=' ∧ d ≠ '-' := by
    rcases hc with rfl | rfl <;> rcases hd with rfl | rfl <;> decide
  cases h with
  | nothing =>
      cases h' with
      | nothing => simp_all
      | value | lost => exact absurd (by simpa using heq) (by simp [hne.1])
  | value j r hvalue =>
      cases h' with
      | nothing => exact absurd heq (by simp [hne.2.1.symm])
      | value j' r' hvalue' =>
          obtain ⟨-, hrest⟩ := List.cons.inj heq
          obtain ⟨hsame, hmore⟩ := hvalue.unique hvalue' hrest
          simp_all
      | lost =>
          obtain ⟨-, hrest⟩ := List.cons.inj heq
          cases hvalue <;> simp [hne.2.2.symm] at hrest

theorem EntriesSpelled.unique : ∀ {entries entries' : List (String × String)}
    {ts us more more' : List TokenTree}, EntriesSpelled entries ts → EntriesRead entries' us →
      ts ++ more = us ++ more' → entries = entries' ∧ more = more'
  | [], _, _, _, _, _, h, _, _ => h.elim
  | [(key, value)], _, _, _, _, _, h, h', heq => by
      obtain ⟨assignment, joint, p, q, rfl, hassignment⟩ := h
      cases h' with
      | last hread =>
          simp only [List.cons_append, List.append_assoc, List.nil_append] at heq
          obtain ⟨hkey, hrest⟩ := List.cons.inj heq
          obtain ⟨hvalue, -, hmore⟩ := hassignment.unique (.inr rfl) (.inr rfl) hread hrest
          simp_all
      | cons hread _ =>
          simp only [List.cons_append, List.append_assoc, List.nil_append] at heq
          obtain ⟨-, hrest⟩ := List.cons.inj heq
          obtain ⟨-, hchar, -⟩ := hassignment.unique (.inr rfl) (.inl rfl) hread hrest
          exact absurd hchar (by decide)
  | (key, value) :: entry :: entries, _, _, _, _, _, h, h', heq => by
      obtain ⟨assignment, joint, p, q, rest, rfl, hassignment, hrest⟩ := h
      cases h' with
      | last hread =>
          simp only [List.cons_append, List.append_assoc, List.nil_append] at heq
          obtain ⟨-, htail⟩ := List.cons.inj heq
          obtain ⟨-, hchar, -⟩ := hassignment.unique (.inl rfl) (.inr rfl) hread htail
          exact absurd hchar (by decide)
      | cons hread hentries =>
          simp only [List.cons_append, List.append_assoc] at heq
          obtain ⟨hkey, htail⟩ := List.cons.inj heq
          obtain ⟨hvalue, -, hmore⟩ := hassignment.unique (.inl rfl) (.inl rfl) hread htail
          obtain ⟨hsame, hmore'⟩ := hrest.unique hentries hmore
          simp_all

namespace Cursor

variable {c : Cursor} {rest : List TokenTree} {p : Text.Position}

theorem yields_options {entries : List (String × String)} {ts : List TokenTree}
    (h : OptionsRead entries ts) (htrees : c.trees = ts ++ rest) (hrest : Lacks '<' rest) :
    Yields c.options fun o d => o.entries = entries ∧ d.trees = rest := by
  intro o d hd hread
  obtain ⟨used, htakes, hspelled⟩ := takes_options hread
  have heq := htakes.1.symm.trans htrees
  cases h with
  | none =>
      cases hspelled with
      | none => exact ⟨rfl, by simpa using heq⟩
      | some _ joint q => exact absurd (by rw [← (show _ = rest from heq)]; rfl) (hrest joint q)
  | @some entries us joint q hentries =>
      cases hspelled with
      | none =>
          unfold Cursor.options at hread
          rw [punct?_of_trees htrees] at hread
          obtain ⟨⟨⟨entries, stop⟩, e, he⟩, -, hread⟩ := ok_of_bind hread
          cases hread
      | some _ joint' q' hentries' =>
          obtain ⟨-, htail⟩ := List.cons.inj heq
          exact hentries'.unique hentries htail

/-! ## Symbols -/

theorem yields_quotation {literal : Quotation} {t : TokenTree} (h : QuotationCopied literal t)
    (htrees : c.trees = t :: rest) :
    Yields c.quotation fun x d => x.unplaced = literal ∧ x.options = .none ∧ d.trees = rest := by
  obtain ⟨q, hvalue, hempty⟩ := h
  rename_i value text
  intro x d hd hread
  obtain ⟨hoptions, -, t, htakes, -, htext, -, r, rfl⟩ := takes_quotation hread
  have heq := htakes.1.symm.trans htrees
  simp only [List.cons_append, List.nil_append, List.cons.injEq, TokenTree.leaf.injEq,
    Leaf.literal.injEq] at heq
  obtain ⟨⟨hsame, -⟩, hrest⟩ := heq
  have hvalue' : x.value = value := by
    rw [hsame, hvalue] at htext
    exact (Option.some.inj htext).symm
  refine ⟨?_, hoptions, hrest⟩
  unfold Quotation.unplaced
  rw [hvalue', hsame, hoptions]
  rfl

theorem yields_quotationOrRange {value text : String} {entries : List (String × String)}
    {mark : List TokenTree} {joint : Bool} {q : Text.Position}
    (hvalue : Literal.value? text = some value) (hempty : value.isEmpty = false)
    (hmark : EntriesRead entries mark) (hrest : Lacks '<' rest)
    (htrees : c.trees = leaf (.literal text) p :: (leaf (.punct '<' joint) q :: mark) ++ rest) :
    Yields c.quotationOrRange fun x d =>
      x.unplaced = .quotation ⟨value, text, .ofEntries entries, .nowhere⟩ ∧ d.trees = rest := by
  unfold quotationOrRange
  refine (yields_quotation (.intro p hvalue hempty) htrees).bind ?_
  rintro first d hd ⟨hfirst, -, hd'⟩
  dsimp only
  rw [pair?_of_lacks (by rw [hd']; exact lacks_cons (by simp))]
  dsimp only
  refine (yields_options (.some joint q hmark) hd' hrest).bind ?_
  rintro options e he ⟨hentries, he'⟩
  refine .ok ⟨?_, he'⟩
  have hvalue' : first.value = value := congrArg (·.value) hfirst
  have htext : first.text = text := congrArg (·.text) hfirst
  rw [Element.unplaced, Element.recast, hvalue', htext, ← hentries]
  rfl

theorem yields_range {first last : Quotation} {t u : TokenTree} {joint : Bool}
    {q : Text.Position} (hfirst : QuotationCopied first t) (hlast : QuotationCopied last u)
    (htrees : c.trees = t :: leaf (.punct '.' true) p :: leaf (.punct '.' joint) q :: u :: rest) :
    Yields c.quotationOrRange fun x d =>
      x.unplaced = .range first last .nowhere ∧ d.trees = rest := by
  unfold quotationOrRange
  refine (yields_quotation hfirst htrees).bind ?_
  rintro literal d hd ⟨hliteral, -, hd'⟩
  obtain ⟨i, e, he, hpair, he'⟩ := pair?_of_trees hd'
  dsimp only
  rw [hpair]
  dsimp only
  refine (yields_quotation hlast he').bind ?_
  rintro literal' f hf ⟨hliteral', -, hf'⟩
  refine .ok ⟨?_, hf'⟩
  rw [Element.unplaced, Element.recast, hliteral, hliteral']

/-- Whether the next tree is a group shows in its head. -/
theorem atGroup_of_leaf {token : Leaf} (delimiter : Delimiter) (h : c.trees = leaf token p :: rest) :
    c.atGroup delimiter = false := by
  unfold atGroup
  rw [h]

theorem yields_tokenRef {name : String} {entries : List (String × String)}
    {ts : List TokenTree} (hname : isTokenName name = true) (hoptions : OptionsRead entries ts)
    (hrest : Lacks '<' rest) (htrees : c.trees = leaf (.ident name) p :: (ts ++ rest)) :
    Yields c.reference fun x d =>
      x.unplaced = .tokenRef name (.ofEntries entries) .nowhere ∧ d.trees = rest := by
  unfold reference
  refine (yields_ident htrees).bind ?_
  rintro ⟨_, i⟩ d hd ⟨rfl, hd'⟩
  dsimp only
  rw [if_pos hname]
  refine (yields_options hoptions hd' hrest).bind ?_
  rintro options e he ⟨hentries, he'⟩
  refine .ok ⟨?_, he'⟩
  rw [Element.unplaced, Element.recast, ← hentries]
  rfl

theorem yields_arguments {code : Snippet} {ts : List TokenTree}
    (h : ArgumentsCopied (some code) ts) (htrees : c.trees = ts ++ rest) :
    Yields c.arguments fun x d => x.unplaced = code ∧ d.trees = rest := by
  intro x d hd hread
  obtain ⟨-, used, htakes, -, hspelled⟩ := takes_arguments hread
  have heq := htakes.1.symm.trans htrees
  cases h
  cases hspelled
  simp only [List.cons_append, List.nil_append, List.cons.injEq, TokenTree.group.injEq] at heq
  obtain ⟨⟨-, -, -, rfl⟩, hrest⟩ := heq
  exact ⟨rfl, hrest⟩

theorem yields_ruleRef {name : String} {args : Option Snippet}
    {entries : List (String × String)} {trees mark : List TokenTree} {joint : Bool}
    {q : Text.Position} (hname : isTokenName name = false) (hargs : ArgumentsCopied args trees)
    (hmark : EntriesRead entries mark) (hrest : Lacks '<' rest)
    (htrees : c.trees =
      leaf (.ident name) p :: (trees ++ (leaf (.punct '<' joint) q :: mark)) ++ rest) :
    Yields c.reference fun x d =>
      x.unplaced = .ruleRef ⟨name, args, .ofEntries entries, .nowhere⟩ ∧ d.trees = rest := by
  unfold reference
  refine (yields_ident htrees).bind ?_
  rintro ⟨_, i⟩ d hd ⟨rfl, hd'⟩
  dsimp only
  rw [if_neg (by rw [hname]; exact Bool.false_ne_true)]
  cases args with
  | none =>
      cases hargs
      rw [if_neg (by rw [atGroup_of_leaf .bracket hd']; exact Bool.false_ne_true)]
      refine (yields_options (.some joint q hmark) hd' hrest).bind ?_
      rintro options e he ⟨hentries, he'⟩
      refine .ok ⟨?_, he'⟩
      rw [Element.unplaced, Element.recast, ← hentries]
      rfl
  | some code =>
      have hgroup : d.atGroup .bracket = true := by
        unfold atGroup
        cases hargs
        rw [hd']
        rfl
      rw [if_pos hgroup]
      refine (yields_arguments hargs (hd'.trans (List.append_assoc ..))).bind ?_
      rintro args e he ⟨rfl, he'⟩
      refine (yields_options (.some joint q hmark) he' hrest).bind ?_
      rintro options f hf ⟨hentries, hf'⟩
      refine .ok ⟨?_, hf'⟩
      rw [Element.unplaced, Element.recast, ← hentries]
      rfl

theorem yields_wildcard {entries : List (String × String)} {ts : List TokenTree} {joint : Bool}
    (hoptions : OptionsRead entries ts) (hrest : Lacks '<' rest)
    (htrees : c.trees = leaf (.punct '.' joint) p :: (ts ++ rest)) :
    Yields c.wildcard fun x d =>
      x.unplaced = .wildcard (.ofEntries entries) .nowhere ∧ d.trees = rest := by
  unfold wildcard
  refine (yields_punct htrees).bind ?_
  intro i d hd hd'
  refine (yields_options hoptions hd' hrest).bind ?_
  rintro options e he ⟨hentries, he'⟩
  refine .ok ⟨?_, he'⟩
  rw [Element.unplaced, Element.recast, ← hentries]
  rfl

theorem yields_opaqueGroup {delimiter : Delimiter} {opened closed : Text.Position}
    {body : List TokenTree} (what : Expectation) (hdelimiter : delimiter ≠ .parenthesis)
    (h : c.trees = group delimiter opened closed body :: rest) :
    Yields (c.opaqueGroup delimiter what) fun a d => a.2 = TokenTree.print body ∧ d.trees = rest := by
  rintro ⟨i, text⟩ d hd hread
  obtain ⟨-, opened', closed', body', rfl, htakes⟩ := takes_opaqueGroup hread hdelimiter
  have heq := htakes.1.symm.trans h
  simp only [List.cons_append, List.nil_append, List.cons.injEq, TokenTree.group.injEq] at heq
  obtain ⟨⟨-, -, -, rfl⟩, hrest⟩ := heq
  exact ⟨rfl, hrest⟩

theorem yields_action {opened closed : Text.Position} {body : List TokenTree}
    (hrest : Lacks '?' rest) (htrees : c.trees = group .brace opened closed body :: rest) :
    Yields c.embedded fun x d =>
      x.unplaced = .action ⟨TokenTree.print body, .ofEntries [], .nowhere⟩ ∧ d.trees = rest := by
  unfold embedded
  refine (yields_opaqueGroup _ (by decide) htrees).bind ?_
  rintro ⟨i, _⟩ d hd ⟨rfl, hd'⟩
  dsimp only
  rw [punct?_of_lacks (by rw [hd']; exact hrest)]
  exact .ok ⟨rfl, hd'⟩

theorem yields_predicate {opened closed : Text.Position} {body : List TokenTree}
    {entries : List (String × String)} {ts : List TokenTree} {joint : Bool}
    (hoptions : OptionsRead entries ts) (hrest : Lacks '<' rest)
    (htrees : c.trees =
      group .brace opened closed body :: leaf (.punct '?' joint) p :: (ts ++ rest)) :
    Yields c.embedded fun x d => x.unplaced =
      .predicate ⟨TokenTree.print body, .ofEntries entries, .nowhere⟩ ∧ d.trees = rest := by
  unfold embedded
  refine (yields_opaqueGroup _ (by decide) htrees).bind ?_
  rintro ⟨i, _⟩ d hd ⟨rfl, hd'⟩
  dsimp only
  rw [punct?_of_trees hd']
  dsimp only
  refine (yields_options hoptions (trees_behind _ _ _) hrest).bind ?_
  rintro options e he ⟨hentries, he'⟩
  refine .ok ⟨?_, he'⟩
  rw [Element.unplaced, Element.recast, ← hentries]
  rfl

/-! ## Suffixes and labels -/

theorem yields_suffixed_follow (element : Element) (hrest : Follow c.trees) :
    Yields (c.suffixed element) fun x d => x = element ∧ d.trees = c.trees := by
  have hnone : c.suffix? = none := by
    have hlacks : ∀ char cs, "~.-,|;#".toList.contains char = false →
        c.atPunct (String.ofList (char :: cs)) = false :=
      fun char cs hchar => atPunct_of_lacks cs (hrest.lacks hchar)
    unfold suffix?
    rw [if_neg (by rw [hlacks '?' [] (by decide)]; exact Bool.false_ne_true),
      if_neg (by rw [hlacks '*' [] (by decide)]; exact Bool.false_ne_true),
      if_neg (by rw [hlacks '+' [] (by decide)]; exact Bool.false_ne_true)]
  rw [suffixed_eq, hnone]
  exact .ok ⟨rfl, rfl⟩

theorem suffix?_of_trees {suffix : Suffix} {joint : Bool}
    (htrees : c.trees = leaf (.punct suffix.char joint) p :: rest) (hrest : Lacks '=' rest) :
    ∃ i d hd, c.suffix? = some (suffix, i, ⟨d, hd⟩) ∧ d.trees = rest := by
  have hat : ∀ char, c.atPunct (String.ofList [char]) = (char == suffix.char) := by
    intro char
    unfold atPunct
    rw [htrees, String.toList_ofList]
    rfl
  have hassign : ∀ char, c.atPunct (String.ofList [char, '=']) = false := by
    intro char
    unfold atPunct
    rw [htrees, String.toList_ofList]
    show (char == suffix.char && joint && spells ['='] rest) = false
    rw [spells_of_lacks hrest, Bool.and_false]
  have hpunct := punct?_of_trees htrees
  refine ⟨c.index, c.behind rest 1, size_behind_lt htrees 1, ?_, rfl⟩
  unfold suffix?
  cases suffix with
  | optional =>
      rw [if_pos (show c.atPunct "?" = true from hat '?'), show c.punct? '?' = _ from hpunct]
      rfl
  | closure =>
      have hstar : (c.atPunct "*" && !c.atPunct "*=") = true := by
        rw [show c.atPunct "*" = true from hat '*', show c.atPunct "*=" = false from hassign '*']
        rfl
      rw [if_neg (by rw [show c.atPunct "?" = false from hat '?']; exact Bool.false_ne_true),
        if_pos hstar, show c.punct? '*' = _ from hpunct]
      rfl
  | positiveClosure =>
      have hplus : (c.atPunct "+" && !c.atPunct "+=") = true := by
        rw [show c.atPunct "+" = true from hat '+', show c.atPunct "+=" = false from hassign '+']
        rfl
      rw [if_neg (by rw [show c.atPunct "?" = false from hat '?']; exact Bool.false_ne_true),
        if_neg (by rw [show c.atPunct "*" = false from hat '*']; exact Bool.false_ne_true),
        if_pos hplus, show c.punct? '+' = _ from hpunct]
      rfl

theorem yields_suffixed {suffix : Suffix} {greedy : Bool} {ts : List TokenTree}
    (element : Element) (h : SuffixSpelled suffix greedy ts) (htrees : c.trees = ts ++ rest)
    (hrest : Follow rest) : Yields (c.suffixed element) fun x d =>
      (∃ extent, x = .suffixed suffix greedy element extent) ∧ d.trees = rest := by
  rw [suffixed_eq]
  cases h with
  | greedy joint q =>
      obtain ⟨i, d, hd, hsuffix, hd'⟩ := suffix?_of_trees htrees (hrest.lacks (by decide))
      rw [hsuffix]
      dsimp only
      rw [punct?_of_lacks (by rw [hd']; exact hrest.lacks (by decide))]
      exact .ok ⟨⟨_, rfl⟩, hd'⟩
  | reluctant joint joint' q r =>
      obtain ⟨i, d, hd, hsuffix, hd'⟩ := suffix?_of_trees
        (show c.trees = leaf (.punct suffix.char joint) q :: leaf (.punct '?' joint') r :: rest from
          htrees) (lacks_cons (by simp))
      rw [hsuffix]
      dsimp only
      rw [punct?_of_trees hd']
      exact .ok ⟨⟨_, rfl⟩, rfl⟩

theorem second_of_leaf {token : Leaf} (h : c.trees = leaf token p :: rest) :
    c.second.trees = rest := by
  unfold second
  rw [h]
  rfl

theorem yields_label {isList : Bool} {name : String} {sign : List TokenTree}
    (h : SignSpelled isList sign) (htrees : c.trees = leaf (.ident name) p :: (sign ++ rest))
    (hrest : Lacks '>' rest) : Yields c.elementLabel fun label d =>
      (∃ i, label = some ⟨name, i, isList⟩) ∧ d.trees = rest := by
  have hsecond := second_of_leaf htrees
  have hident : c.atIdent = true := by
    unfold atIdent
    rw [htrees]
  have hat : c.atLabel = true := by
    unfold atLabel
    rw [hident]
    dsimp only
    unfold atPunct
    rw [hsecond]
    cases h with
    | one joint q =>
        have harrow : spells ['=', '>'] (leaf (.punct '=' joint) q :: rest) = false := by
          show ('=' == '=' && joint && spells ['>'] rest) = false
          rw [spells_of_lacks hrest, Bool.and_false]
        show (true && (true || _) && !spells ['=', '>'] (leaf (.punct '=' joint) q :: rest)) = true
        rw [harrow]
        rfl
    | list => rfl
  unfold elementLabel
  rw [if_pos hat]
  refine (yields_ident htrees).bind ?_
  rintro ⟨_, i⟩ d hd ⟨rfl, hd'⟩
  dsimp only
  cases h with
  | one joint q =>
      rw [pair?_of_lacks (by rw [hd']; exact lacks_cons (by simp))]
      refine (show Yields (d.punct '=') _ from yields_punct hd').bind ?_
      intro j e he he'
      exact .ok ⟨⟨_, rfl⟩, he'⟩
  | list joint q r =>
      obtain ⟨j, e, he, hpair, he'⟩ := pair?_of_trees hd'
      rw [hpair]
      exact .ok ⟨⟨_, rfl⟩, he'⟩

theorem yields_elementLabel_none (h : c.atLabel = false) :
    Yields c.elementLabel fun label d => label = none ∧ d.trees = c.trees := by
  unfold elementLabel
  rw [if_neg (by rw [h]; exact Bool.false_ne_true)]
  exact .ok ⟨rfl, rfl⟩

theorem yields_altLabel {label : Option AltLabel} {ts : List TokenTree}
    (h : AltLabelCopied label ts) (htrees : c.trees = ts ++ rest)
    (hrest : EndsBy TokenTree.endsAlt rest) : Yields c.altLabel fun found d =>
      (found.map Prod.fst).map (·.unplaced) = label ∧ d.trees = rest := by
  unfold altLabel
  cases h with
  | none =>
      rw [punct?_of_lacks (by rw [htrees]; exact hrest.lacks fun _ _ => rfl)]
      exact .ok ⟨rfl, htrees⟩
  | some name joint q r =>
      simp only [List.cons_append, List.nil_append] at htrees
      rw [punct?_of_trees htrees]
      refine (yields_ident (trees_behind _ _ _)).bind ?_
      rintro ⟨_, i⟩ d hd ⟨rfl, hd'⟩
      exact .ok ⟨rfl, hd'⟩

end Cursor

/-! ## What an element begins with -/

/-- An element without its label and its suffix. -/
def Element.core : Element → Element
  | .suffixed _ _ element _ => element.core
  | .labeled _ _ _ element _ => element.core
  | element => element

theorem Element.core_of_isBare {e : Element} (h : e.isBare = true) : e.core = e := by
  cases e with
  | suffixed | labeled => cases h
  | _ => rfl

theorem SuffixSpelled.lacks {suffix : Suffix} {greedy : Bool} {ts : List TokenTree}
    (h : SuffixSpelled suffix greedy ts) (rest : List TokenTree) {c : Char}
    (hc : "?*+".toList.contains c = false) : Lacks c (ts ++ rest) := by
  cases h <;> refine lacks_cons fun joint p heq => ?_ <;>
    obtain ⟨rfl, -⟩ := Leaf.punct.inj (TokenTree.leaf.inj heq).1 <;>
    cases suffix <;> exact absurd hc (by decide)

theorem SuffixSpelled.lacks_question {suffix : Suffix} {greedy : Bool} {ts : List TokenTree}
    (h : SuffixSpelled suffix greedy ts) (hne : suffix ≠ .optional) (rest : List TokenTree) :
    Lacks '?' (ts ++ rest) := by
  cases h <;> refine lacks_cons fun joint p heq => ?_ <;>
    have hchar := (Leaf.punct.inj (TokenTree.leaf.inj heq).1).1 <;>
    cases suffix <;> first | exact hne rfl | exact absurd hchar (by decide)

theorem Element.isCommand_of_isUnsuffixed {e : Element} (h : e.isUnsuffixed = true) :
    e.isCommand = false := by
  cases e with
  | command => cases h
  | _ => rfl

theorem Element.Copied.head {e : Element} (hcommand : e.isCommand = false) : ∀ {ts : List TokenTree},
    Element.Copied ts e → ∃ t us, ts = t :: us ∧ t.beginsElement = true := by
  induction e using Element.core.induct with
  | case1 suffix greedy inner extent ih =>
      intro ts h
      cases h with
      | suffixed hunsuffixed hinner =>
          obtain ⟨t, us, rfl, ht⟩ := ih (Element.isCommand_of_isUnsuffixed hunsuffixed) hinner
          exact ⟨t, _, rfl, ht⟩
  | case2 => intro ts h; cases h; exact ⟨_, _, rfl, rfl⟩
  | case3 e hsuffixed hlabeled =>
      intro ts h
      cases h with
      | suffixed => exact absurd rfl (hsuffixed _ _ _ _)
      | command => cases hcommand
      | range hfirst => cases hfirst; exact ⟨_, _, rfl, rfl⟩
      | _ => exact ⟨_, _, rfl, rfl⟩

theorem CommandMarkSpelled.head {ts : List TokenTree} (h : CommandMarkSpelled ts) :
    ∃ t us, ts = t :: us ∧ t.beginsCommand = true := by
  cases h <;> exact ⟨_, _, rfl, rfl⟩

theorem Element.Copied.lacks {e : Element} {ts : List TokenTree} (h : Element.Copied ts e)
    (hcommand : e.isCommand = false) {c : Char} (hc : "~.".toList.contains c = false)
    (rest : List TokenTree) : Lacks c (ts ++ rest) := by
  obtain ⟨t, us, rfl, ht⟩ := h.head hcommand
  refine lacks_cons fun joint p heq => ?_
  subst heq
  simp_all [TokenTree.beginsElement]

/-- Behind an element the others may stand. -/
theorem Element.ListCopied.follow {es : List Element} {ts rest : List TokenTree}
    (h : Element.ListCopied ts es) (hrest : EndsBy TokenTree.endsElements rest) :
    Follow (ts ++ rest) := by
  cases h with
  | nil => exact hrest.follow
  | @cons _ _ e _ _ _ he _ =>
      intro u hu
      cases hcommand : e.isCommand with
      | false =>
          obtain ⟨t, us, rfl, ht⟩ := he.head hcommand
          obtain rfl := Option.some.inj hu
          exact .inl ht
      | true =>
          cases he with
          | command hmark =>
              obtain ⟨t, us, rfl, ht⟩ := hmark.head
              obtain rfl := Option.some.inj hu
              exact .inr (.inl ht)
          | _ => cases hcommand
  | name =>
      intro u hu
      obtain rfl := Option.some.inj hu
      exact .inl rfl

/-! ## Lexer commands -/

theorem Element.isCommand_named (name : String) : (Element.named name).isCommand = false := by
  unfold Element.named
  split <;> rfl

/-- Trees at the first of some lexer commands, the mark of which has been read. -/
inductive CommandsCopied : List TokenTree → List Element → Prop
  | intro {name : String} {p : Text.Position} {arg : Option String} {trees back : List TokenTree}
      {es : List Element} : CommandArgCopied arg trees → (∀ e ∈ es, e.isCommand = true) →
      Element.ListCopied back es →
      CommandsCopied (leaf (.ident name) p :: (trees ++ back)) (.command name arg .nowhere :: es)

/-- Copies of lexer commands begin with a mark. -/
theorem Element.ListCopied.commands {ts : List TokenTree} {e : Element} {es : List Element}
    (h : Element.ListCopied ts (e :: es)) (hcommand : e.isCommand = true) :
    ∃ mark us, ts = mark ++ us ∧ CommandMarkSpelled mark ∧ CommandsCopied us (e :: es) := by
  cases h with
  | cons _ hall he hes =>
      cases he with
      | command hmark harg =>
          exact ⟨_, _, List.append_assoc .., hmark, .intro harg (hall rfl) hes⟩
      | _ => cases hcommand
  | name => rw [Element.isCommand_named] at hcommand; cases hcommand

/-! ## Elements -/

namespace Cursor

/-- If trees of a copy can be read without label and suffix, they are read as the copy. -/
def ReadsAtom (e : Element) : Prop :=
  ∀ ⦃c : Cursor⦄ ⦃ts rest : List TokenTree⦄, Element.Copied ts e → e.isBare = true →
    c.trees = ts ++ rest → Lacks '<' rest → (e.isAction = true → Lacks '?' rest) →
    Yields c.atom fun x d => x.unplaced = e ∧ d.trees = rest

variable {c : Cursor} {rest : List TokenTree}

/-- Behind a word that is no label stands no sign of a label. -/
theorem atLabel_of_lacks {token : Leaf} {p : Text.Position} (h : c.trees = leaf token p :: rest)
    (hassign : Lacks '=' rest) (hplus : Lacks '+' rest) : c.atLabel = false := by
  have hsecond : c.second.trees = rest := second_of_leaf h
  unfold atLabel
  dsimp only
  rw [show c.second.atPunct "=" = false from atPunct_of_lacks [] (by rw [hsecond]; exact hassign),
    show c.second.atPunct "+=" = false from atPunct_of_lacks ['='] (by rw [hsecond]; exact hplus)]
  simp

/-- What is written without a label is followed by a mark or by arguments and not by the sign of a
label. -/
theorem atLabel_of_bare {e : Element} {ts : List TokenTree} (h : Element.Copied ts e)
    (hbare : e.isBare = true) (htrees : c.trees = ts ++ rest) : c.atLabel = false := by
  have hident : c.atIdent = false → c.atLabel = false := by
    intro hident
    unfold atLabel
    rw [hident]
    rfl
  cases h with
  | ruleRef _ _ hargs =>
      cases hargs <;> exact atLabel_of_lacks htrees (lacks_cons (by simp)) (lacks_cons (by simp))
  | tokenRef => exact atLabel_of_lacks htrees (lacks_cons (by simp)) (lacks_cons (by simp))
  | suffixed | labeled | set | command => cases hbare
  | range hfirst => cases hfirst; exact hident (by unfold atIdent; rw [htrees]; rfl)
  | _ => exact hident (by unfold atIdent; rw [htrees]; rfl)

/-- An element is a label, something bare and a suffix. -/
theorem yields_element_of (label : Option ElementLabel → Cursor → Prop)
    (atom : Option ElementLabel → Element → Cursor → Prop) {post : Element → Cursor → Prop}
    (hlabel : Yields c.elementLabel label)
    (hatom : ∀ l d, label l d → Yields d.atom (atom l))
    (hsuffix : ∀ l x d, atom l x d →
      Yields (d.suffixed (match l with | some l => l.onto x | none => x)) post) :
    Yields c.element post := by
  rw [element]
  refine hlabel.bind ?_
  intro l d hd hl
  refine (hatom l d hl).bind ?_
  intro x e he hx
  refine (hsuffix l x e hx).bind ?_
  intro y f hf hy
  exact .ok hy

/-- What is written without a suffix is read, and then a suffix is looked for. -/
theorem yields_unsuffixed {e : Element} {ts : List TokenTree} (hcore : ReadsAtom e.core)
    (h : Element.Copied ts e) (hunsuffixed : e.isUnsuffixed = true) (htrees : c.trees = ts ++ rest)
    (hrest : Lacks '<' rest) (haction : e.isAction = true → Lacks '?' rest)
    {post : Element → Cursor → Prop}
    (hnext : ∀ (x : Element) (d : Cursor), x.unplaced = e → d.trees = rest →
      Yields (d.suffixed x) post) :
    Yields c.element post := by
  have hplain : e.isBare = true → Yields c.element post := by
    intro hbare
    rw [Element.core_of_isBare hbare] at hcore
    refine yields_element_of _ (fun l x d => l = none ∧ x.unplaced = e ∧ d.trees = rest)
      (yields_elementLabel_none (atLabel_of_bare h hbare htrees)) ?_ ?_
    · rintro l d ⟨hl, hd⟩
      exact fun x f hf hread => ⟨hl, hcore h hbare (hd.trans htrees) hrest haction x f hf hread⟩
    · rintro l x d ⟨rfl, hx, hd⟩
      exact hnext x d hx hd
  cases e with
  | labeled isList name token inner extent =>
      cases h with
      | @labeled _ _ p sign us _ hbare hsign hinner =>
          rw [Element.core, Element.core_of_isBare hbare] at hcore
          refine yields_element_of _ (fun l x d => (∃ i, l = some ⟨name, i, isList⟩) ∧
            x.unplaced = inner ∧ d.trees = rest) (yields_label hsign (by simpa using htrees)
              (hinner.lacks (isCommand_of_isBare hbare) (by decide) rest)) ?_ ?_
          · rintro l d ⟨hl, hd⟩
            exact fun x f hf hread => ⟨hl, hcore hinner hbare hd hrest haction x f hf hread⟩
          · rintro l x d ⟨⟨i, rfl⟩, rfl, hd⟩
            exact hnext _ _ rfl hd
  | suffixed => cases hunsuffixed
  | _ => exact hplain hunsuffixed

theorem yields_element {e : Element} {ts : List TokenTree} (hcore : ReadsAtom e.core)
    (h : Element.Copied ts e) (hset : e.isSet = false) (hcommand : e.isCommand = false)
    (htrees : c.trees = ts ++ rest) (hrest : Follow rest) :
    Yields c.element fun x d => x.unplaced = e ∧ d.trees = rest := by
  have hplain : e.isUnsuffixed = true →
      Yields c.element fun x d => x.unplaced = e ∧ d.trees = rest := by
    intro hunsuffixed
    refine yields_unsuffixed hcore h hunsuffixed htrees (hrest.lacks (by decide))
      (fun _ => hrest.lacks (by decide)) ?_
    intro x d hx hd y f hf hread
    obtain ⟨rfl, hf'⟩ := yields_suffixed_follow x (by rw [hd]; exact hrest) y f hf hread
    exact ⟨hx, hf'.trans hd⟩
  cases h with
  | @suffixed suffix greedy front back inner hunsuffixed hinner hsuffix haction =>
      rw [List.append_assoc] at htrees
      have hlacks : ∀ char, "?*+".toList.contains char = false → Lacks char (back ++ rest) :=
        fun char hchar => hsuffix.lacks rest hchar
      have hcore' : ReadsAtom inner.core := hcore
      refine yields_unsuffixed hcore' hinner hunsuffixed htrees (hlacks '<' (by decide)) ?_ ?_
      · intro hcode
        have hne : suffix ≠ .optional := fun h => by rw [haction h] at hcode; cases hcode
        exact hsuffix.lacks_question hne rest
      · intro x d hx hd y f hf hread
        obtain ⟨⟨extent, rfl⟩, hf'⟩ := yields_suffixed x hsuffix hd hrest y f hf hread
        exact ⟨by rw [← hx]; rfl, hf'⟩
  | set => cases hset
  | command => cases hcommand
  | _ => exact hplain rfl

/-- A symbol that may be negated. -/
theorem yields_negatable {e : Element} {ts : List TokenTree} (hcore : ReadsAtom e.core)
    (h : Element.Copied ts e) (hnegatable : isNegatable e = true) (htrees : c.trees = ts ++ rest)
    (hrest : Lacks '<' rest) :
    Yields c.setElement fun x d => x.unplaced = e ∧ d.trees = rest := by
  have hbare := isBare_of_isNegatable hnegatable
  rw [Element.core_of_isBare hbare] at hcore
  have haction : e.isAction = true → Lacks '?' rest := by
    intro haction
    cases e with
    | action | labeled => cases hnegatable
    | _ => exact absurd haction Bool.false_ne_true
  rw [setElement]
  refine (hcore h hbare htrees hrest haction).bind ?_
  rintro x d hd ⟨rfl, hd'⟩
  have hx : isNegatable x = true := (Element.isNegatable_recast _ _ x).symm.trans hnegatable
  dsimp only
  rw [if_pos hx]
  exact .ok ⟨rfl, hd'⟩

/-- A negated symbol does not begin with a parenthesis. -/
theorem setOperand_of_isNegatable {e : Element} {ts : List TokenTree} (h : Element.Copied ts e)
    (hnegatable : isNegatable e = true) (htrees : c.trees = ts ++ rest) :
    c.setOperand = c.setElement := by
  refine setOperand_eq fun opened closed body us heq => ?_
  rw [htrees] at heq
  cases h with
  | tokenRef | quotation => cases heq
  | range hfirst => cases hfirst; cases heq
  | _ => cases hnegatable

/-! ## The descent -/

theorem atAltEnd_of_begins {t : TokenTree} {ts : List TokenTree} (h : c.trees = t :: ts)
    (ht : t.beginsElement = true) : c.atAltEnd = false := by
  have hlacks : ∀ {char : Char}, (char == '~' || char == '.') = false → Lacks char c.trees := by
    intro char hchar
    rw [h]
    refine lacks_cons fun joint p heq => ?_
    subst heq
    exact Bool.false_ne_true (hchar.symm.trans ht)
  have hempty : c.trees.isEmpty = false := by
    rw [h]
    rfl
  unfold atAltEnd
  rw [hempty, show c.atPunct "|" = false from atPunct_of_lacks [] (hlacks (by decide)),
    show c.atPunct ";" = false from atPunct_of_lacks [] (hlacks (by decide)),
    show c.atPunct "#" = false from atPunct_of_lacks [] (hlacks (by decide)),
    show c.atPunct "->" = false from atPunct_of_lacks ['>'] (hlacks (by decide))]
  rfl

theorem atAltEnd_of_ends (h : EndsBy TokenTree.endsElements c.trees) : c.atAltEnd = true := by
  unfold atAltEnd atPunct
  cases htrees : c.trees with
  | nil => rfl
  | cons t ts =>
      have ht := h t (by rw [htrees]; rfl)
      unfold TokenTree.endsElements at ht
      split at ht
      · next char joint p =>
          simp only [Bool.or_eq_true, beq_iff_eq] at ht
          rcases ht with (rfl | rfl) | rfl <;> simp [spells]
      · cases ht

theorem commandList_of_ends (h : EndsBy TokenTree.endsElements c.trees) :
    c.commandList = .ok ([], ⟨c, Nat.le_refl _⟩) := by
  unfold commandList
  rw [pair?_of_lacks (h.lacks fun _ _ => rfl)]

/-- An alternative from its parts, without places. -/
theorem unplaced_altOf (next : Nat) (options : Options) (es : List Element)
    (label : Option (AltLabel × Nat)) : (altOf next options es label).unplaced =
      ⟨if es = [] then [.epsilon .nowhere] else Element.allUnplaced es,
        .ofEntries options.entries, (label.map Prod.fst).map (·.unplaced), .nowhere, none⟩ := by
  cases es <;> rfl

theorem atom_leaf_eq {token : Leaf} {p : Text.Position} {ts : List TokenTree}
    (h : c.trees = leaf token p :: ts) (hpunct : ∀ char joint, token ≠ .punct char joint) :
    c.atom = if c.atLiteral then c.quotationOrRange else c.reference := by
  have hlacks : ∀ char, Lacks char c.trees := by
    intro char
    rw [h]
    exact lacks_cons fun joint q heq => hpunct char joint (TokenTree.leaf.inj heq).1
  rw [atom_leaf h, symbol, punct?_of_lacks (hlacks '~')]
  dsimp only
  rw [show c.atPunct "." = false from atPunct_of_lacks [] (hlacks '.')]
  rfl

theorem atLiteral_ident {text : String} {p : Text.Position} {ts : List TokenTree}
    (h : c.trees = leaf (.ident text) p :: ts) : c.atLiteral = isTruth text := by
  unfold atLiteral
  rw [h]
  rfl

theorem atLiteral_literal {text : String} {p : Text.Position} {ts : List TokenTree}
    (h : c.trees = leaf (.literal text) p :: ts) : c.atLiteral = true := by
  unfold atLiteral
  rw [h]

/-- No reference begins with punctuation. -/
theorem yields_reference_punct {char : Char} {joint : Bool} {p : Text.Position} {ts : List TokenTree}
    {post : Element → Cursor → Prop} (h : c.trees = leaf (.punct char joint) p :: ts) :
    Yields c.reference post := by
  intro x d hd hread
  unfold reference ident at hread
  split at hread
  · next heq =>
      rw [h] at heq
      cases heq
  · cases hread

/-- A dot is a wildcard, or it begins the sign of a range and is nothing that can be read. -/
theorem yields_dot {joint : Bool} {p : Text.Position} {ts : List TokenTree}
    {post : Element → Cursor → Prop} (h : c.trees = leaf (.punct '.' joint) p :: ts)
    (hwildcard : Yields c.wildcard post) : Yields c.atom post := by
  rw [atom_leaf h, symbol, punct?_of_lacks (by rw [h]; exact lacks_cons (by simp))]
  dsimp only
  split
  · exact hwildcard
  · have hliteral : c.atLiteral = false := by
      unfold atLiteral
      rw [h]
      rfl
    rw [if_neg (by rw [hliteral]; exact Bool.false_ne_true)]
    exact yields_reference_punct h

/-- A word is no literal but one of the truth values, which stand for no text. -/
theorem yields_quotationOrRange_word {text : String} {p : Text.Position} {post : Element → Cursor → Prop}
    (h : c.trees = leaf (.ident text) p :: rest) : Yields c.quotationOrRange post := by
  have hnone : Yields c.quotation fun _ _ => False := by
    intro literal d hd hread
    obtain ⟨-, -, t, htakes, -, -, -, q, rfl⟩ := takes_quotation hread
    have heq := htakes.1.symm.trans h
    simp at heq
  exact hnone.bind fun _ _ _ hfalse => hfalse.elim

/-- A name alone. -/
theorem yields_named {name : String} {p : Text.Position} (h : c.trees = leaf (.ident name) p :: rest)
    (hrest : Follow rest) : Yields c.element fun x d => x.unplaced = .named name ∧ d.trees = rest := by
  refine yields_element_of _ (fun l x d => l = none ∧ x.unplaced = .named name ∧ d.trees = rest)
    (yields_elementLabel_none (atLabel_of_lacks h (hrest.lacks (by decide)) (hrest.lacks (by decide))))
    ?_ ?_
  · rintro l d ⟨hl, hd⟩
    have htrees := hd.trans h
    rw [atom_leaf_eq htrees (by simp)]
    split
    · exact yields_quotationOrRange_word htrees
    · unfold reference
      refine (yields_ident htrees).bind ?_
      rintro ⟨_, i⟩ e he ⟨rfl, he'⟩
      have hgroup : e.atGroup .bracket = false := by
        unfold atGroup
        split
        · next delimiter _ _ _ _ heq =>
            rw [he'] at heq
            rw [heq] at hrest
            cases delimiter with
            | bracket => rcases hrest _ rfl with h | h | h <;> cases h
            | _ => rfl
        · rfl
      have hoptions : Yields e.options fun o d => o.entries = [] ∧ d.trees = rest :=
        yields_options .none he' (hrest.lacks (by decide))
      dsimp only
      split
      · next hname =>
          refine hoptions.bind ?_
          rintro o f hf ⟨hentries, hf'⟩
          refine .ok ⟨hl, ?_, hf'⟩
          rw [Element.named, if_pos hname, Element.unplaced, Element.recast, ← hentries]
          rfl
      · next hname =>
          rw [if_neg (by rw [hgroup]; exact Bool.false_ne_true)]
          refine hoptions.bind ?_
          rintro o f hf ⟨hentries, hf'⟩
          refine .ok ⟨hl, ?_, hf'⟩
          rw [Element.named, if_neg hname, Element.unplaced, Element.recast, ← hentries]
          rfl
  · rintro l x d ⟨rfl, hx, hd⟩ y f hf hread
    obtain ⟨rfl, hf'⟩ := yields_suffixed_follow x (by rw [hd]; exact hrest) y f hf hread
    exact ⟨hx, hf'.trans hd⟩

/-- No element begins with a comma. -/
theorem yields_element_comma {joint : Bool} {p : Text.Position} {post : Element → Cursor → Prop}
    (h : c.trees = leaf (.punct ',' joint) p :: rest) : Yields c.element post := by
  have hlabel : c.atLabel = false := by
    unfold atLabel atIdent
    rw [h]
    rfl
  refine yields_element_of _ (fun _ _ _ => False) (yields_elementLabel_none hlabel) ?_
    fun _ _ _ hfalse => hfalse.elim
  rintro l d ⟨-, hd⟩
  have htrees := hd.trans h
  have hliteral : d.atLiteral = false := by
    unfold atLiteral
    rw [htrees]
    rfl
  have hlacks : ∀ char, (char == ',') = false → Lacks char d.trees := by
    intro char hchar
    rw [htrees]
    exact lacks_cons (by simpa using fun h => beq_eq_false_iff_ne.mp hchar h.symm)
  rw [atom_leaf htrees, symbol, punct?_of_lacks (hlacks '~' rfl)]
  dsimp only
  rw [show d.atPunct "." = false from atPunct_of_lacks [] (hlacks '.' rfl), hliteral,
    Bool.false_and, if_neg Bool.false_ne_true, if_neg Bool.false_ne_true]
  exact yields_reference_punct htrees

/-! ## Reading commands -/

theorem yields_commandArg {arg : Option String} {ts : List TokenTree} (h : CommandArgCopied arg ts)
    (htrees : c.trees = ts ++ rest)
    (hrest : ∀ opened closed body, rest.head? ≠ some (group .parenthesis opened closed body)) :
    Yields c.commandArg fun a d => a.1 = arg ∧ d.trees = rest := by
  unfold commandArg
  split
  · next opened closed body us htrees' =>
      have heq := htrees'.symm.trans htrees
      cases h with
      | none =>
          refine absurd ?_ (hrest opened closed body)
          rw [← show _ = rest from heq]
          rfl
      | some arg opened' closed' p =>
          obtain ⟨hgroup, rfl⟩ := List.cons.inj heq
          obtain ⟨-, -, -, rfl⟩ := TokenTree.group.inj hgroup
          refine (yields_ident rfl).bind ?_
          rintro ⟨_, i⟩ e he ⟨rfl, -⟩
          exact .ok ⟨rfl, rfl⟩
  · next hne =>
      cases h with
      | none => exact .ok ⟨rfl, htrees⟩
      | some arg opened closed p => exact absurd htrees (hne opened closed _ rest)

/-- Lexer commands are read up to the end, or up to an arrow. -/
theorem yields_commands (es : List Element) : ∀ {c : Cursor} {ts rest : List TokenTree},
    CommandsCopied ts es → c.trees = ts ++ rest → EndsBy TokenTree.endsElements rest →
      Yields c.commands fun xs d =>
        Lacks '-' d.trees → Element.allUnplaced xs = es ∧ d.trees = rest := by
  induction es with
  | nil =>
      intro c ts rest h
      cases h
  | cons e es ih =>
      intro c ts rest h htrees hrest
      cases h with
      | @intro name p arg trees back _ harg hall hes =>
          rw [List.cons_append, List.append_assoc] at htrees
          rw [commands]
          refine (yields_ident htrees).bind ?_
          rintro ⟨_, i⟩ d hd ⟨rfl, hd'⟩
          dsimp only
          cases es with
          | nil =>
              cases hes
              refine (yields_commandArg harg hd' fun opened closed body hhead => ?_).bind ?_
              · cases hrest _ hhead
              rintro ⟨_, close⟩ f hf ⟨rfl, hf'⟩
              dsimp only
              rw [punct?_of_lacks (by rw [hf']; exact hrest.lacks fun _ _ => rfl)]
              exact .ok fun _ => ⟨rfl, hf'⟩
          | cons e' es =>
              obtain ⟨mark, us, rfl, hmark, hcommands⟩ := hes.commands (hall e' (List.mem_cons_self ..))
              rw [List.append_assoc] at hd'
              refine (yields_commandArg harg hd' fun opened closed body => ?_).bind ?_
              · intro hhead
                cases hmark <;> cases hhead
              rintro ⟨_, close⟩ f hf ⟨rfl, hf'⟩
              dsimp only
              cases hmark with
              | arrow joint q r =>
                  -- an arrow ends the commands before it
                  rw [punct?_of_lacks (by rw [hf']; exact lacks_cons (by simp))]
                  exact .ok fun hlacks => absurd (by rw [hf']; rfl) (hlacks true q)
              | comma joint q =>
                  rw [punct?_of_trees hf']
                  dsimp only
                  refine (ih hcommands (trees_behind _ _ _) hrest).bind ?_
                  intro xs g hg hread
                  refine .ok fun hlacks => ?_
                  obtain ⟨hxs, hg'⟩ := hread hlacks
                  exact ⟨congrArg (_ :: ·) hxs, hg'⟩

/-- What is ahead of the elements of an alternative: nothing more of it, or lexer commands. -/
inductive CommandsAhead (rest : List TokenTree) : List TokenTree → List Element → Prop
  | nothing : CommandsAhead rest rest []
  | commands {joint : Bool} {p q : Text.Position} {ts : List TokenTree} {es : List Element} :
      CommandsCopied ts es → CommandsAhead rest
        (leaf (.punct '-' true) p :: leaf (.punct '>' joint) q :: (ts ++ rest)) es

theorem yields_commandList {es : List Element} (h : CommandsAhead rest c.trees es)
    (hrest : EndsBy TokenTree.endsElements rest) : Yields c.commandList fun xs d =>
      Lacks '-' d.trees → Element.allUnplaced xs = es ∧ d.trees = rest := by
  generalize htrees : c.trees = ts at h
  cases h with
  | nothing =>
      rw [commandList_of_ends (by rw [htrees]; exact hrest)]
      exact .ok fun _ => ⟨rfl, htrees⟩
  | commands hcommands =>
      obtain ⟨i, d, hd, hpair, hd'⟩ := pair?_of_trees htrees
      unfold commandList
      rw [hpair]
      dsimp only
      refine (yields_commands es hcommands hd' hrest).bind ?_
      intro xs e he hread
      exact .ok hread

/-! ## One kind of element at a time -/

/-- If the trees of a copy of alternatives can be read, they are read as the copy. A vertical bar or a dash
where reading stops shows that something was left over before. -/
def ReadsAlts (as : List Alt) : Prop :=
  ∀ ⦃c : Cursor⦄ ⦃ts rest : List TokenTree⦄, Alt.AllCopied ts as → c.trees = ts ++ rest →
    EndsBy TokenTree.endsAlts rest → Yields c.alts fun xs d => Lacks '|' d.trees → Lacks '-' d.trees →
      Alt.allUnplaced xs = as ∧ d.trees = rest

def ReadsSet (es : List Element) : Prop :=
  ∀ ⦃c : Cursor⦄ ⦃ts : List TokenTree⦄, Element.SetCopied ts es → c.trees = ts →
    Yields c.setElements fun xs d => d.trees = [] → Element.allUnplaced xs = es

theorem readsAtom_block {alts : List Alt} (halts : ReadsAlts alts) (options : Options)
    (extent : Extent) : ReadsAtom (.block alts options extent) := by
  intro c ts rest h _ htrees _ _
  cases h with
  | block hcopied =>
      rw [atom_parenthesis htrees]
      refine (halts hcopied (List.append_nil _).symm (endsBy_nil _)).bind ?_
      intro as d hd hread
      dsimp only
      split
      · exact .error
      · next hempty =>
          have hend : d.trees = [] := by simpa using hempty
          refine .ok ⟨?_, rfl⟩
          obtain ⟨rfl, -⟩ := hread (by rw [hend]; exact nofun) (by rw [hend]; exact nofun)
          rfl

theorem readsAtom_not {operand : Element} (hoperand : ReadsAtom operand.core)
    (hset : ∀ elements extent, operand = .set elements extent → ReadsSet elements) (extent : Extent) :
    ReadsAtom (.not operand extent) := by
  intro c ts rest h _ htrees hrest _
  cases h with
  | @not joint p ts _ hshape hcopied =>
      rw [atom_leaf htrees, symbol, punct?_of_trees htrees]
      dsimp only
      have hread : Yields (c.behind (ts ++ rest) 1).setOperand fun x d =>
          x.unplaced = operand ∧ d.trees = rest := by
        rcases hshape with ⟨elements, inner, rfl⟩ | hnegatable
        · cases hcopied with
          | set helements =>
              rw [show [_] ++ rest = _ :: rest from rfl, setOperand_parenthesis (trees_behind c _ 1)]
              refine (hset elements _ rfl helements rfl).bind ?_
              intro xs d hd hread
              dsimp only
              split
              · exact .error
              · next hempty =>
                  refine .ok ⟨?_, rfl⟩
                  rw [← hread (by simpa using hempty)]
                  rfl
        · rw [setOperand_of_isNegatable hcopied hnegatable (trees_behind c _ 1)]
          exact yields_negatable hoperand hcopied hnegatable (trees_behind c _ 1) hrest
      refine hread.bind ?_
      rintro x d hd ⟨rfl, hd'⟩
      exact .ok ⟨rfl, hd'⟩

theorem readsAtom_wildcard (options : Options) (extent : Extent) :
    ReadsAtom (.wildcard options extent) := by
  intro c ts rest h _ htrees hrest _
  cases h with
  | wildcard hmark => exact yields_dot htrees (yields_wildcard hmark.read hrest htrees)

theorem readsAtom_quotation (literal : Quotation) : ReadsAtom (.quotation literal) := by
  intro c ts rest h _ htrees hrest _
  cases h with
  | quotation hvalue hempty hmark =>
      rw [atom_leaf_eq htrees (by simp), if_pos (atLiteral_literal htrees)]
      exact yields_quotationOrRange hvalue hempty hmark.read hrest htrees

theorem readsAtom_range (first last : Quotation) (extent : Extent) :
    ReadsAtom (.range first last extent) := by
  intro c ts rest h _ htrees _ _
  cases h with
  | range hfirst hlast =>
      obtain ⟨p, hvalue, hempty⟩ := hfirst
      rw [atom_leaf_eq htrees (by simp), if_pos (atLiteral_literal htrees)]
      exact yields_range (.intro p hvalue hempty) hlast htrees

theorem readsAtom_ruleRef (ref : RuleRef) : ReadsAtom (.ruleRef ref) := by
  intro c ts rest h _ htrees hrest _
  cases h with
  | ruleRef hname htruth hargs hmark =>
      rw [atom_leaf_eq htrees (by simp),
        if_neg (by rw [atLiteral_ident htrees, htruth]; exact Bool.false_ne_true)]
      exact yields_ruleRef hname hargs hmark.read hrest htrees

theorem readsAtom_tokenRef (name : String) (options : Options) (extent : Extent) :
    ReadsAtom (.tokenRef name options extent) := by
  intro c ts rest h _ htrees hrest _
  cases h with
  | tokenRef hname hmark =>
      have htruth : isTruth name = false := by
        rw [Bool.eq_false_iff]
        intro htruth
        unfold isTruth at htruth
        simp only [Bool.or_eq_true, beq_iff_eq] at htruth
        rcases htruth with rfl | rfl <;> exact absurd hname (by decide)
      rw [atom_leaf_eq htrees (by simp),
        if_neg (by rw [atLiteral_ident htrees, htruth]; exact Bool.false_ne_true)]
      exact yields_tokenRef hname (MarkPrinted.options hmark).read hrest htrees

theorem readsAtom_action (code : Snippet) : ReadsAtom (.action code) := by
  intro c ts rest h _ htrees _ haction
  cases h with
  | action =>
      rw [atom_brace htrees]
      exact yields_action (haction rfl) htrees

theorem readsAtom_predicate (code : Snippet) : ReadsAtom (.predicate code) := by
  intro c ts rest h _ htrees hrest _
  cases h with
  | predicate hoptions =>
      rw [atom_brace htrees]
      exact yields_predicate hoptions.read hrest htrees

mutual
theorem readsAtom_core : ∀ e : Element, ReadsAtom e.core
  | .suffixed _ _ element _ => readsAtom_core element
  | .labeled _ _ _ element _ => readsAtom_core element
  | .block alts options extent => readsAtom_block (yields_alts alts) options extent
  | .not operand extent => by
      refine readsAtom_not (readsAtom_core operand) (fun elements inner heq => ?_) extent
      subst heq
      exact yields_setElements elements
  | .wildcard options extent => readsAtom_wildcard options extent
  | .quotation literal => readsAtom_quotation literal
  | .range first last extent => readsAtom_range first last extent
  | .ruleRef ref => readsAtom_ruleRef ref
  | .tokenRef name options extent => readsAtom_tokenRef name options extent
  | .action code => readsAtom_action code
  | .predicate code => readsAtom_predicate code
  | .set elements extent => fun _ _ _ _ hbare => by cases hbare
  | .command _ _ _ => fun _ _ _ _ hbare => by cases hbare
  | .epsilon _ => fun _ _ _ _ hbare => by cases hbare

theorem yields_alts : ∀ as : List Alt, ReadsAlts as
  | [], _, _, _, h, _, _ => by cases h
  | a :: as, c, ts, rest, h, htrees, hrest => by
      rw [alts]
      cases h with
      | last ha =>
          refine (yields_alt a ha htrees hrest.endsAlt).bind ?_
          intro x d hd hread
          have hlacks : Lacks '|' d.trees := by
            by_cases hdash : Lacks '-' d.trees
            · rw [(hread hdash).2]
              exact hrest.lacks fun _ _ => rfl
            · exact lacks_of_not_lacks hdash (by decide)
          dsimp only
          rw [punct?_of_lacks hlacks, ite_self]
          refine .ok fun _ hdash => ?_
          obtain ⟨rfl, hd'⟩ := hread hdash
          exact ⟨rfl, hd'⟩
      | @cons front back joint p _ _ ha has =>
          rw [List.append_assoc] at htrees
          refine (yields_alt a ha htrees (endsBy_cons rfl)).bind ?_
          intro x d hd hread
          dsimp only
          by_cases hdash : Lacks '-' d.trees
          · obtain ⟨rfl, hd'⟩ := hread hdash
            by_cases hbars : d.atPunct "||" = true
            · -- two bars in a row end the alternatives before the first
              rw [if_pos hbars]
              refine .ok fun hlacks => ?_
              exact absurd (by rw [hd']; rfl) (hlacks joint p)
            · rw [if_neg hbars, punct?_of_trees hd']
              dsimp only
              refine (yields_alts as has (trees_behind _ _ _) hrest).bind ?_
              intro xs e he hread
              refine .ok fun hlacks hdash => ?_
              obtain ⟨rfl, he'⟩ := hread hlacks hdash
              exact ⟨rfl, he'⟩
          · rw [punct?_of_lacks (lacks_of_not_lacks hdash (by decide)), ite_self]
            exact .ok fun _ hlacks => absurd hlacks hdash

theorem yields_alt : ∀ (a : Alt) {c : Cursor} {ts rest : List TokenTree},
    Alt.Copied ts a → c.trees = ts ++ rest → EndsBy TokenTree.endsAlt rest →
      Yields c.alt fun x d => Lacks '-' d.trees → x.unplaced = a ∧ d.trees = rest
  | ⟨elements, options, label, extent, info⟩, c, ts, rest, h, htrees, hrest => by
      rw [alt]
      cases h with
      | empty hlabel =>
          have hends : EndsBy TokenTree.endsElements (ts ++ rest) := by
            cases hlabel with
            | none => exact hrest.endsElements
            | some => exact endsBy_cons rfl
          refine (yields_options .none htrees (hends.lacks fun _ _ => rfl)).bind ?_
          rintro options d hd ⟨hentries, hd'⟩
          dsimp only
          rw [Cursor.elements, if_pos (atAltEnd_of_ends (by rw [hd']; exact hends))]
          dsimp only [bind, Except.bind]
          rw [commandList_of_ends (by rw [hd']; exact hends)]
          refine (yields_altLabel hlabel hd' hrest).bind ?_
          rintro found e he ⟨rfl, he'⟩
          refine .ok fun _ => ⟨?_, he'⟩
          rw [unplaced_altOf, hentries]
          rfl
      | @written front back _ _ _ hes hlabel =>
          have hends : EndsBy TokenTree.endsElements (back ++ rest) := by
            cases hlabel with
            | none => exact hrest.endsElements
            | some => exact endsBy_cons rfl
          rw [List.append_assoc] at htrees
          refine (yields_options .none htrees ((hes.follow hends).lacks (by decide))).bind ?_
          rintro options d hd ⟨hentries, hd'⟩
          refine (yields_elements _ hes hd' hends).bind ?_
          rintro xs f hf ⟨cs, hxs, hahead⟩
          refine (yields_commandList hahead hends).bind ?_
          intro ys g hg hys
          by_cases hlacks : Lacks '-' g.trees
          · obtain ⟨hcs, hg'⟩ := hys hlacks
            refine (yields_altLabel hlabel hg' hrest).bind ?_
            rintro found g hg ⟨rfl, hg'⟩
            refine .ok fun _ => ⟨?_, hg'⟩
            have hall := (Element.allUnplaced_append xs ys).trans ((hcs ▸ hxs).symm)
            have hne : xs ++ ys ≠ [] := by
              intro hnil
              rw [hnil] at hall
              cases hall
            rw [unplaced_altOf, if_neg hne, hall, hentries]
          · -- commands that were not read to their end are left over
            have hnone : g.punct? '#' = none := punct?_of_lacks (lacks_of_not_lacks hlacks (by decide))
            unfold altLabel
            dsimp only
            rw [hnone]
            exact .ok fun hlacks' => absurd hlacks' hlacks

theorem yields_elements : ∀ (es : List Element) {c : Cursor} {ts rest : List TokenTree},
    Element.ListCopied ts es → c.trees = ts ++ rest → EndsBy TokenTree.endsElements rest →
      Yields c.elements fun xs d => ∃ cs, es = Element.allUnplaced xs ++ cs ∧
        CommandsAhead rest d.trees cs
  | [], c, _, rest, h, htrees, hrest => by
      cases h
      rw [elements, if_pos (atAltEnd_of_ends (by rw [htrees]; exact hrest))]
      exact .ok ⟨[], rfl, htrees ▸ .nothing⟩
  | e :: es, c, ts, rest, h, htrees, hrest => by
      cases hcommand : e.isCommand with
      | true =>
          obtain ⟨mark, us, rfl, hmark, hcommands⟩ := h.commands hcommand
          rw [elements]
          cases hmark with
          | arrow joint p q =>
              have hend : c.atAltEnd = true := by
                unfold atAltEnd atPunct
                rw [htrees]
                simp [spells]
              rw [if_pos hend]
              exact .ok ⟨e :: es, rfl, htrees ▸ .commands hcommands⟩
          | comma joint p =>
              have hbegins : c.atAltEnd = false := by
                unfold atAltEnd atPunct
                rw [htrees]
                rfl
              rw [hbegins, if_neg Bool.false_ne_true]
              have hnone : Yields c.element fun _ _ => False := yields_element_comma htrees
              exact hnone.bind fun _ _ _ hfalse => hfalse.elim
      | false =>
          cases h with
          | @cons front back _ _ hset _ he hes =>
              obtain ⟨t, us, rfl, ht⟩ := he.head hcommand
              have hbegins : c.atAltEnd = false := atAltEnd_of_begins htrees ht
              rw [List.append_assoc] at htrees
              rw [elements, hbegins, if_neg Bool.false_ne_true]
              refine (yields_element (readsAtom_core e) he hset hcommand htrees (hes.follow hrest)).bind ?_
              rintro x d hd ⟨rfl, hd'⟩
              refine (yields_elements es hes hd' hrest).bind ?_
              rintro xs f hf ⟨cs, rfl, hahead⟩
              exact .ok ⟨cs, rfl, hahead⟩
          | @name name p back _ hes =>
              have hbegins : c.atAltEnd = false := atAltEnd_of_begins htrees rfl
              rw [elements, hbegins, if_neg Bool.false_ne_true]
              refine (yields_named htrees (hes.follow hrest)).bind ?_
              rintro x d hd ⟨hx, hd'⟩
              refine (yields_elements es hes hd' hrest).bind ?_
              rintro xs f hf ⟨cs, rfl, hahead⟩
              exact .ok ⟨cs, congrArg (· :: _) hx.symm, hahead⟩

theorem yields_setElements : ∀ es : List Element, ReadsSet es
  | [], _, _, h, _ => by cases h
  | e :: es, c, ts, h, htrees => by
      rw [setElements]
      cases h with
      | last hnegatable he =>
          refine (yields_negatable (readsAtom_core e) he hnegatable
            (htrees.trans (List.append_nil ts).symm) nofun).bind ?_
          rintro x d hd ⟨rfl, hd'⟩
          dsimp only
          rw [punct?_of_lacks (by rw [hd']; exact nofun)]
          exact .ok fun _ => rfl
      | @cons front back joint p _ _ hnegatable he hes =>
          refine (yields_negatable (readsAtom_core e) he hnegatable htrees
            (lacks_cons (by simp))).bind ?_
          rintro x d hd ⟨rfl, hd'⟩
          dsimp only
          rw [punct?_of_trees hd']
          dsimp only
          refine (yields_setElements es hes (trees_behind _ _ _)).bind ?_
          intro xs f hf hread
          refine .ok fun hend => ?_
          rw [← hread hend]
          rfl
end

end Cursor

end GrammarCompiler
