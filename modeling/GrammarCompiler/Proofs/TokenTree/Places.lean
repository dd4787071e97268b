import GrammarCompiler.Token.Table
import GrammarCompiler.TokenTree.Assemble

/-!
# Where tokens stand

Lexemes stand one behind the other in a text (`Scan.places_increase`). The tokens that a
documentation comment stands for all stand at the place of the comment, and only they share a place.
So no two tokens of a source stand at one place if every `#` outside of embedded code has a name
behind it (`Labelled`), which no documentation comment has, and each of them is found again where it
stands (`TokenTable.locate`).
-/

namespace GrammarCompiler

open Text (Position)

/-! ## Places -/

namespace Text.Position

/-- Whether a place comes before another in a text. -/
def Before (p q : Position) : Prop :=
  p.line < q.line ∨ p.line = q.line ∧ p.column < q.column

variable {p q r : Position}

theorem Before.trans (h : p.Before q) (h' : q.Before r) : p.Before r := by
  unfold Before at *
  omega

theorem Before.ne (h : p.Before q) : p ≠ q := by
  rintro rfl
  unfold Before at h
  omega

theorem before_step (p : Position) (c : Char) : p.Before (p.step c) := by
  unfold Before step
  split
  · exact .inl (Nat.lt_succ_self _)
  · exact .inr ⟨rfl, Nat.lt_succ_self _⟩

theorem Before.after (h : p.Before q) (cs : List Char) : p.Before (q.after cs) := by
  induction cs generalizing q with
  | nil => exact h
  | cons c cs ih => exact ih (h.trans (q.before_step c))

end Text.Position

/-! ## Scanning -/

/-- Lexemes stand behind the beginning of the text, one behind the other. -/
theorem Scan.scanFrom_increase (p : Position) (cs : List Char) :
    (∀ q : Position, q.Before p → ∀ l ∈ (scanFrom p cs).lexemes, q.Before l.2) ∧
      (scanFrom p cs).lexemes.Pairwise fun l m => l.2.Before m.2 := by
  fun_induction scanFrom p cs with
  | case1 => exact ⟨fun _ _ _ h => absurd h List.not_mem_nil, .nil⟩
  | case2 => exact ⟨fun _ _ _ h => absurd h List.not_mem_nil, .nil⟩
  | case3 p c cs more _ ih =>
      have hstep := (p.before_step c).after (cs.take more)
      exact ⟨fun q hq => ih.1 q (hq.trans hstep), ih.2⟩
  | case4 p c cs lexeme more _ ih =>
      have hstep := (p.before_step c).after (cs.take more)
      refine ⟨fun q hq l hl => ?_, List.pairwise_cons.mpr ⟨ih.1 p hstep, ih.2⟩⟩
      rcases List.mem_cons.mp hl with rfl | hl
      · exact hq
      · exact ih.1 q (hq.trans hstep) l hl

theorem Scan.places_increase (source : String) :
    (scan source).lexemes.Pairwise fun l m => l.2.Before m.2 := by
  unfold scan
  split
  · split
    · exact (scanFrom_increase _ _).2
    · exact (scanFrom_increase _ _).2
  · exact (scanFrom_increase _ _).2

namespace TokenTree

/-! ## Tokens of the table -/

mutual
/-- The lexemes of a tree that are tokens of the table, where they stand. -/
def top : TokenTree → List (Lexeme × Position)
  | leaf token p => [(.leaf token, p)]
  | group .parenthesis opened closed body =>
    (.opening .parenthesis, opened) :: (tops body ++ [(.closing .parenthesis, closed)])
  | group .bracket opened _ _ => [(.opening .bracket, opened)]
  | group .brace opened _ _ => [(.opening .brace, opened)]

def tops : List TokenTree → List (Lexeme × Position)
  | [] => []
  | t :: ts => top t ++ tops ts
end

@[simp]
theorem top_leaf (token : Leaf) (p : Position) : top (leaf token p) = [(.leaf token, p)] := by
  rw [top]

@[simp]
theorem top_parenthesis (opened closed : Position) (body : List TokenTree) :
    top (group .parenthesis opened closed body) =
      (.opening .parenthesis, opened) :: (tops body ++ [(.closing .parenthesis, closed)]) := by
  rw [top]

theorem top_of_ne {delimiter : Delimiter} (h : delimiter ≠ .parenthesis)
    (opened closed : Position) (body : List TokenTree) :
    top (group delimiter opened closed body) = [(.opening delimiter, opened)] := by
  cases delimiter with
  | parenthesis => exact absurd rfl h
  | bracket => rw [top]
  | brace => rw [top]

@[simp]
theorem tops_nil : tops [] = [] := by
  rw [tops]

@[simp]
theorem tops_cons (t : TokenTree) (ts : List TokenTree) : tops (t :: ts) = top t ++ tops ts := by
  rw [tops]

@[simp]
theorem tops_append (ts us : List TokenTree) : tops (ts ++ us) = tops ts ++ tops us := by
  induction ts with
  | nil => simp
  | cons t ts ih => simp [ih]

/-! ## Gathering -/

/-- The tokens of the table that a lexeme stands for. -/
def stands : Lexeme × Position → List (Lexeme × Position)
  | (.doc inner text, p) => tops (ofDoc inner text p)
  | lexeme => [lexeme]

/-- Whether what stands in a group is embedded code. -/
def Frame.isOpaque (frame : Frame) : Bool :=
  frame.delimiter != .parenthesis

/-- The tokens of the table that were read so far: nothing of what stands in embedded code. -/
def seen : List Frame → List TokenTree → List (Lexeme × Position)
  | [], done => tops done.reverse
  | frame :: frames, done => seen frames frame.before ++
    if frames.any Frame.isOpaque then []
    else (.opening frame.delimiter, frame.opened) ::
      if frame.isOpaque then [] else tops done.reverse

theorem seen_append (frames : List Frame) (done ts : List TokenTree) :
    seen frames (ts.reverse ++ done) =
      seen frames done ++ if frames.any Frame.isOpaque then [] else tops ts := by
  cases frames with
  | nil => simp [seen]
  | cons frame frames =>
      cases houter : frames.any Frame.isOpaque <;> cases hframe : frame.isOpaque <;>
        simp [seen, houter, hframe]

theorem seen_cons (frames : List Frame) (done : List TokenTree) (t : TokenTree) :
    seen frames (t :: done) =
      seen frames done ++ if frames.any Frame.isOpaque then [] else top t := by
  have h := seen_append frames done [t]
  rwa [List.reverse_singleton, List.singleton_append, tops_cons, tops_nil, List.append_nil] at h

theorem seen_open (frames : List Frame) (done : List TokenTree) (delimiter : Delimiter)
    (p : Position) :
    seen (⟨delimiter, p, done⟩ :: frames) [] =
      seen frames done ++ if frames.any Frame.isOpaque then [] else [(.opening delimiter, p)] := by
  simp [seen]

theorem seen_close (frame : Frame) (frames : List Frame) (done : List TokenTree) (p : Position) :
    seen frames (group frame.delimiter frame.opened p done.reverse :: frame.before) =
      seen (frame :: frames) done ++
        if (frame :: frames).any Frame.isOpaque then []
        else [(.closing frame.delimiter, p)] := by
  rw [seen_cons, seen, List.any_cons]
  cases houter : frames.any Frame.isOpaque
  · cases hframe : frame.isOpaque
    · have hdelimiter : frame.delimiter = .parenthesis := by simpa [Frame.isOpaque] using hframe
      simp [hdelimiter]
    · have hdelimiter : frame.delimiter ≠ .parenthesis := by simpa [Frame.isOpaque] using hframe
      simp [top_of_ne hdelimiter]
  · simp

/-- A lexeme is kept, or it stands in embedded code and is left out. -/
theorem exists_kept {l : Lexeme × Position}
    {lexemes kept before after : List (Lexeme × Position)} (inCode : Bool)
    (hkept : kept.Sublist lexemes) (hafter : after = before ++ if inCode then [] else stands l) :
    ∃ kept' : List (Lexeme × Position), kept'.Sublist (l :: lexemes) ∧
      after ++ kept.flatMap stands = before ++ kept'.flatMap stands := by
  subst hafter
  cases inCode with
  | true => exact ⟨kept, hkept.cons l, by simp⟩
  | false => exact ⟨l :: kept, hkept.cons_cons l, by simp⟩

/-- The tokens of the table come from the lexemes outside of embedded code. -/
theorem tops_assemble {stuck : Option Position} {lexemes : List (Lexeme × Position)}
    {frames : List Frame} {done trees : List TokenTree}
    (h : assemble stuck frames done lexemes = .ok trees) :
    ∃ kept : List (Lexeme × Position), kept.Sublist lexemes ∧
      tops trees = seen frames done ++ kept.flatMap stands := by
  induction lexemes generalizing frames done with
  | nil =>
      unfold assemble at h
      cases stuck with
      | some p => cases h
      | none =>
          cases frames with
          | cons frame frames => cases h
          | nil =>
              obtain rfl := Except.ok.inj h
              exact ⟨[], .slnil, by simp [seen]⟩
  | cons lexeme lexemes ih =>
      obtain ⟨lexeme, p⟩ := lexeme
      cases lexeme with
      | leaf token =>
          rw [assemble] at h
          obtain ⟨kept, hkept, htops⟩ := ih h
          rw [htops]
          exact exists_kept _ hkept (by rw [seen_cons, top_leaf, stands]; nofun)
      | doc inner text =>
          rw [assemble] at h
          obtain ⟨kept, hkept, htops⟩ := ih h
          rw [htops]
          exact exists_kept _ hkept (by rw [seen_append, stands])
      | opening delimiter =>
          rw [assemble] at h
          obtain ⟨kept, hkept, htops⟩ := ih h
          rw [htops]
          exact exists_kept _ hkept (by rw [seen_open, stands]; nofun)
      | closing delimiter =>
          cases frames with
          | nil => cases h
          | cons frame frames =>
              rw [assemble] at h
              split at h
              · next hsame =>
                obtain rfl := hsame
                obtain ⟨kept, hkept, htops⟩ := ih h
                rw [htops]
                exact exists_kept _ hkept (by rw [seen_close, stands]; nofun)
              · cases h

/-! ## Labels -/

/-- Whether every `#` has a name behind it. -/
inductive Labelled : List (Lexeme × Position) → Prop
  | nil : Labelled []
  | label (joint : Bool) (name : String) (p q : Position) {ls : List (Lexeme × Position)} :
      Labelled ls → Labelled ((.leaf (.punct '#' joint), p) :: (.leaf (.ident name), q) :: ls)
  | cons {l : Lexeme × Position} {ls : List (Lexeme × Position)} :
      (∀ joint, l.1 ≠ .leaf (.punct '#' joint)) → Labelled ls → Labelled (l :: ls)

theorem Labelled.append {ls ms : List (Lexeme × Position)} (h : Labelled ls) (h' : Labelled ms) :
    Labelled (ls ++ ms) := by
  induction h with
  | nil => exact h'
  | label joint name p q _ ih => exact .label joint name p q ih
  | cons hne _ ih => exact .cons hne ih

theorem Labelled.tail {l : Lexeme × Position} {ls : List (Lexeme × Position)}
    (h : Labelled (l :: ls)) : Labelled ls := by
  cases h with
  | label joint name p q h => exact .cons nofun h
  | cons _ h => exact h

/-- No documentation comment is read where every `#` has a name behind it. -/
theorem Labelled.flatMap_stands {kept : List (Lexeme × Position)}
    (h : Labelled (kept.flatMap stands)) : kept.flatMap stands = kept := by
  induction kept with
  | nil => rfl
  | cons lexeme kept ih =>
      rw [List.flatMap_cons] at h ⊢
      obtain ⟨lexeme, p⟩ := lexeme
      cases lexeme with
      | doc inner text =>
          cases inner <;> simp [stands, ofDoc, top_of_ne] at h <;> cases h with
          | cons hne _ => exact absurd rfl (hne false)
      | leaf token => exact congrArg _ (ih h.tail)
      | opening delimiter => exact congrArg _ (ih h.tail)
      | closing delimiter => exact congrArg _ (ih h.tail)

/-- The tokens of the table stand one behind the other. -/
theorem Labelled.increase {source : String} {trees : List TokenTree}
    (h : Labelled (tops trees)) (hparse : parse source = .ok trees) :
    ((tops trees).map (·.2)).Pairwise Position.Before := by
  obtain ⟨kept, hkept, htops⟩ := tops_assemble hparse
  rw [seen, List.reverse_nil, tops_nil, List.nil_append] at htops
  rw [htops] at h ⊢
  rw [h.flatMap_stands, List.pairwise_map]
  exact (Scan.places_increase source).sublist hkept

end TokenTree

/-! ## The token table -/

namespace TokenTable

open TokenTree (tops top)

/-- Where the tokens of a table stand. -/
def places (table : TokenTable) : List Position :=
  table.tokens.toList.map Token.position

theorem places_push (table : TokenTable) (source : Nat) (kind : TokenKind) (text : String)
    (joint : Bool) (position : Position) :
    (table.push source kind text joint position).places = table.places ++ [position] := by
  rw [places, push, Array.toList_push, List.map_append]
  rfl

mutual
theorem places_pushTree (source : Nat) : ∀ (t : TokenTree) (table : TokenTable),
    (pushTree source t table).places = table.places ++ (top t).map (·.2)
  | .leaf (.ident _) _, table | .leaf (.literal _) _, table | .leaf (.punct _ _) _, table =>
      places_push ..
  | .group .parenthesis opened closed body, table => by
      rw [pushTree, places_push, places_pushTrees, places_push]
      simp
  | .group .brace _ _ _, table | .group .bracket _ _ _, table => by
      rw [pushTree, places_push, top]
      rfl

theorem places_pushTrees (source : Nat) : ∀ (ts : List TokenTree) (table : TokenTable),
    (pushTrees source ts table).places = table.places ++ (tops ts).map (·.2)
  | [], table => by rw [pushTrees, TokenTree.tops_nil, List.map_nil, List.append_nil]
  | t :: ts, table => by
      rw [pushTrees, places_pushTrees source ts, places_pushTree source t, TokenTree.tops_cons,
        List.map_append, List.append_assoc]
end

theorem places_addSource (table : TokenTable) (name : String) (trees : List TokenTree) :
    (table.addSource name trees).places = table.places ++ (tops trees).map (·.2) :=
  places_pushTrees ..

/-- The last token that stands at a place. -/
def locate (table : TokenTable) (place : Position) : Option Nat :=
  (List.range table.size).reverse.find? fun i => (table.get? i).any (·.position = place)

/-- Tokens that stand at places of their own are found there. -/
theorem locate_position {table : TokenTable} (h : table.places.Pairwise Position.Before) {i : Nat}
    {token : Token} (hi : table.get? i = some token) : table.locate token.position = some i := by
  have hplace : ∀ {j t}, table.get? j = some t → table.places[j]? = some t.position := by
    intro j t hj
    rw [places, List.getElem?_map, Array.getElem?_toList, show table.tokens[j]? = some t from hj]
    rfl
  have hlt : i < table.size := (Array.getElem?_eq_some_iff.mp hi).1
  unfold locate
  cases hfound : (List.range table.size).reverse.find? fun j =>
      (table.get? j).any (·.position = token.position) with
  | none =>
      have hnone := List.find?_eq_none.mp hfound i (by simpa using hlt)
      rw [hi] at hnone
      exact absurd (decide_eq_true rfl) hnone
  | some j =>
      have hsome := List.find?_some hfound
      cases hj : table.get? j with
      | none => simp [hj] at hsome
      | some t =>
          have hsame : t.position = token.position := by simpa [hj] using hsome
          obtain ⟨hi, hti⟩ := List.getElem?_eq_some_iff.mp (hplace hi)
          obtain ⟨hj, htj⟩ := List.getElem?_eq_some_iff.mp (hplace hj)
          have hplaces : table.places[i] = table.places[j] := by rw [hti, htj, hsame]
          rw [List.pairwise_iff_getElem] at h
          rcases Nat.lt_trichotomy i j with hij | rfl | hji
          · exact absurd hplaces (h i j hi hj hij).ne
          · rfl
          · exact absurd hplaces.symm (h j i hj hi hji).ne

end TokenTable

end GrammarCompiler
