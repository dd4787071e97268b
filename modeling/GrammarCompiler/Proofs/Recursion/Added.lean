import GrammarCompiler.Proofs.Ast.Copied

/-!
# What replaying tokens adds

An alternative is written out by replaying its tokens, but for those that are skipped and with marks
behind those that begin an element. What some tokens add to the text does not depend on what was
written before, but for whether joint punctuation comes last (`Adds`), so it is found part by part
(`Adds.append`).
-/

namespace GrammarCompiler

open TokenTree (leaf group allWritten widths)

/-! ## Tokens of trees -/

/-- Whether tokens are those of trees, and numbered from `i` on. -/
structure Numbered (i : Nat) (ts : List TokenTree) (tokens : List Token) : Prop where
  written : tokens.map Token.written = allWritten ts
  indices : tokens.map Token.index = List.range' i tokens.length

namespace Numbered

variable {i : Nat} {t : TokenTree} {ts us : List TokenTree} {tokens : List Token}

theorem length_eq (h : Numbered i ts tokens) : tokens.length = widths ts := by
  rw [← TokenTree.length_allWritten, ← h.written, List.length_map]

theorem nil (h : Numbered i [] tokens) : tokens = [] :=
  List.eq_nil_of_length_eq_zero (h.length_eq.trans TokenTree.widths_nil)

theorem append (h : Numbered i (ts ++ us) tokens) : ∃ front back, tokens = front ++ back ∧
    Numbered i ts front ∧ Numbered (i + widths ts) us back := by
  have hwritten := h.written
  rw [TokenTree.allWritten_append] at hwritten
  obtain ⟨front, back, rfl, hfront, hback⟩ := List.map_eq_append_iff.mp hwritten
  have hlength : front.length = widths ts := by
    rw [← TokenTree.length_allWritten, ← hfront, List.length_map]
  have hindices := h.indices
  rw [List.map_append, List.length_append, ← List.range'_append_1] at hindices
  obtain ⟨hfront', hback'⟩ := List.append_inj hindices (by simp)
  exact ⟨front, back, rfl, ⟨hfront, hfront'⟩, ⟨hback, hlength ▸ hback'⟩⟩

/-- A tree that is one token. -/
theorem single {w : Written} (h : Numbered i (t :: ts) tokens) (hw : t.written = [w]) :
    ∃ token rest, tokens = token :: rest ∧ token.index = i ∧ token.written = w ∧
      Numbered (i + 1) ts rest := by
  obtain ⟨front, rest, rfl, hfront, hrest⟩ := (show Numbered i ([t] ++ ts) tokens from h).append
  have hwidth : widths [t] = 1 := by
    rw [TokenTree.widths_cons, TokenTree.widths_nil, ← TokenTree.length_written, hw]
    rfl
  have hwritten := hfront.written
  rw [allWritten, allWritten, List.append_nil, hw] at hwritten
  obtain ⟨token, rfl, htoken⟩ := List.map_eq_singleton_iff.mp hwritten
  exact ⟨token, rest, rfl, (List.cons.inj hfront.indices).1, htoken, hwidth ▸ hrest⟩

/-- A group in parentheses, which are tokens of their own. -/
theorem parenthesis {opened closed : Text.Position} {body : List TokenTree}
    (h : Numbered i (group .parenthesis opened closed body :: ts) tokens) :
    ∃ first inner last rest, tokens = first :: (inner ++ last :: rest) ∧
      (first.index = i ∧ first.written = ⟨.openParen, "(", false⟩) ∧ Numbered (i + 1) body inner ∧
      (last.index = i + 1 + widths body ∧ last.written = ⟨.closeParen, ")", false⟩) ∧
      Numbered (i + (widths body + 2)) ts rest := by
  obtain ⟨whole, rest, rfl, hwhole, hrest⟩ :=
    (show Numbered i ([group .parenthesis opened closed body] ++ ts) tokens from h).append
  rw [TokenTree.widths_cons, TokenTree.widths_nil, TokenTree.width_parenthesis] at hrest
  have hwritten := hwhole.written
  rw [allWritten, allWritten, List.append_nil, TokenTree.written] at hwritten
  obtain ⟨first, behind, rfl, hfirst, hbehind⟩ := List.map_eq_cons_iff.mp hwritten
  obtain ⟨inner, closing, rfl, hinner, hclosing⟩ := List.map_eq_append_iff.mp hbehind
  obtain ⟨last, rfl, hlast⟩ := List.map_eq_singleton_iff.mp hclosing
  have hlength : inner.length = widths body := by
    rw [← TokenTree.length_allWritten, ← hinner, List.length_map]
  have hindices := hwhole.indices
  rw [List.map_cons, List.length_cons, List.range'_succ] at hindices
  obtain ⟨hindex, hbehind'⟩ := List.cons.inj hindices
  rw [List.map_append, List.length_append, ← List.range'_append_1] at hbehind'
  obtain ⟨hinner', hlast'⟩ := List.append_inj hbehind' (by simp)
  refine ⟨first, inner, last, rest, by simp, ⟨hindex, hfirst⟩, ⟨hinner, hinner'⟩, ⟨?_, hlast⟩, hrest⟩
  rw [← hlength]
  exact (List.cons.inj hlast').1

/-- Where tokens stand. -/
theorem bounds (h : Numbered i ts tokens) {token : Token} (htoken : token ∈ tokens) :
    i ≤ token.index ∧ token.index < i + widths ts := by
  have hmem : token.index ∈ tokens.map Token.index := List.mem_map_of_mem htoken
  rw [h.indices, List.mem_range'_1, h.length_eq] at hmem
  exact hmem

end Numbered

/-! ## Steps -/

namespace Alt

variable {skips : Nat → Bool} {element? : Nat → Option Element} {out : Replay} {t u : Token}
  {ts : List Token} {e : Element}

theorem replay_skipped (h : skips t.index = true) :
    replay skips element? out (t :: ts) = replay skips element? out ts := by
  rw [replay, if_pos h]

theorem replay_plain (h : skips t.index = false) (he : element? t.index = none) :
    replay skips element? out (t :: ts) = replay skips element? (out.token t) ts := by
  rw [replay, h, if_neg Bool.false_ne_true, he]

theorem replay_marked (h : skips t.index = false) (he : element? t.index = some e)
    (hts : ∀ u ∈ ts.head?, u.kind ≠ .argAction) : replay skips element? out (t :: ts) =
      replay skips element? ((out.token t).options (e.optionsText t.index)) ts := by
  rw [replay, h, if_neg Bool.false_ne_true, he]
  dsimp only
  split
  · next u us => rw [if_neg (hts u rfl)]
  · rfl

theorem replay_arguments {ref : RuleRef} (h : skips t.index = false)
    (he : element? t.index = some (.ruleRef ref)) (hu : u.kind = .argAction) :
    replay skips element? out (t :: u :: ts) = replay skips element?
      (((out.token t).token u).options ((Element.ruleRef ref).optionsText t.index)) ts := by
  rw [replay, h, if_neg Bool.false_ne_true, he]
  exact if_pos hu

end Alt

/-! ## Parts -/

/-- Whether tokens begin with an argument list. -/
def LacksArguments (tokens : List Token) : Prop :=
  ∀ t ∈ tokens.head?, t.kind ≠ .argAction

/-- What replaying tokens adds to a text. The first flag tells whether joint punctuation comes last
in the text, the second whether it does behind the tokens. -/
structure Adds (skips : Nat → Bool) (element? : Nat → Option Element) (glue : Bool)
    (tokens : List Token) (text : String) (glue' : Bool) : Prop where
  head : LacksArguments tokens
  replay_eq : ∀ s more, s ≠ "" → LacksArguments more →
    Alt.replay skips element? ⟨s, glue⟩ (tokens ++ more) =
      Alt.replay skips element? ⟨s ++ text, glue'⟩ more

namespace Adds

variable {skips : Nat → Bool} {element? : Nat → Option Element} {glue mid glue' : Bool}
  {tokens others : List Token} {text text' : String} {t u : Token} {e : Element}

theorem nil (glue : Bool) : Adds skips element? glue [] "" glue :=
  ⟨nofun, fun s more _ _ => by rw [List.nil_append, String.append_empty]⟩

theorem append (h : Adds skips element? glue tokens text mid)
    (h' : Adds skips element? mid others text' glue') :
    Adds skips element? glue (tokens ++ others) (text ++ text') glue' := by
  refine ⟨fun t ht => ?_, fun s more hs hmore => ?_⟩
  · cases tokens with
    | nil => exact h'.head t ht
    | cons first tokens => exact h.head t ht
  · have hbehind : LacksArguments (others ++ more) := by
      cases others with
      | nil => exact hmore
      | cons first others => exact h'.head
    have hne : s ++ text ≠ "" := by
      intro hempty
      exact hs (String.append_eq_empty_iff.mp hempty).1
    rw [List.append_assoc, h.replay_eq s _ hs hbehind, h'.replay_eq _ more hne hmore,
      String.append_assoc]

/-- Tokens that are left out. -/
theorem skipped (hhead : LacksArguments tokens) (h : ∀ t ∈ tokens, skips t.index = true) :
    Adds skips element? glue tokens "" glue := by
  refine ⟨hhead, fun s more _ _ => ?_⟩
  rw [String.append_empty]
  clear hhead
  induction tokens with
  | nil => rfl
  | cons t tokens ih =>
      rw [List.cons_append, Alt.replay_skipped (h t (List.mem_cons_self ..))]
      exact ih fun u hu => h u (List.mem_cons_of_mem _ hu)

theorem lacksArguments_singleton (h : t.kind ≠ .argAction) : LacksArguments [t] := by
  intro u hu
  obtain rfl := Option.some.inj hu
  exact h

/-- A token that begins no element. -/
theorem plain {kind : TokenKind} {word : String} {joint : Bool}
    (ht : t.written = ⟨kind, word, joint⟩) (hkind : kind ≠ .argAction) (h : skips t.index = false)
    (he : element? t.index = none) : Adds skips element? glue [t]
      ((if glue && kind = .punct then "" else " ") ++ word) (kind = .punct && joint) := by
  obtain ⟨rfl, rfl, rfl⟩ := Written.mk.inj ht
  refine ⟨lacksArguments_singleton hkind, fun s more hs _ => ?_⟩
  rw [List.singleton_append, Alt.replay_plain h he, Replay.token_of_text hs, String.append_assoc]

/-- Options add nothing but their text, and behind them no punctuation is glued. -/
theorem options_markText (s : String) (glue : Bool) (entries : List (String × String)) :
    (Replay.mk s glue).options (markText entries) =
      ⟨s ++ markText entries, glue && entries.isEmpty⟩ := by
  cases entries with
  | nil => simp [Replay.options, markText]
  | cons entry entries =>
      have hne : (markText (entry :: entries)).isEmpty = false := by
        rw [← Bool.not_eq_true, String.isEmpty_iff]
        simp [markText]
      rw [Replay.options, hne, if_neg Bool.false_ne_true, List.isEmpty_cons, Bool.and_false]
      rfl

/-- A token that begins an element, with the mark behind it. -/
theorem marked {kind : TokenKind} {word : String} {joint : Bool}
    (ht : t.written = ⟨kind, word, joint⟩) (hkind : kind ≠ .argAction) (h : skips t.index = false)
    (he : element? t.index = some e) (hindex : e.extent.start = t.index) :
    Adds skips element? glue [t]
      ((if glue && kind = .punct then "" else " ") ++ word ++ markText e.marks)
      ((kind = .punct && joint) && e.marks.isEmpty) := by
  obtain ⟨rfl, rfl, rfl⟩ := Written.mk.inj ht
  refine ⟨lacksArguments_singleton hkind, fun s more hs hmore => ?_⟩
  rw [List.singleton_append, Alt.replay_marked h he hmore, Replay.token_of_text hs, ← hindex,
    Element.optionsText_eq, options_markText]
  simp only [String.append_assoc]

/-- A reference with arguments, with the mark behind them. -/
theorem arguments {ref : RuleRef} {word code : String} (ht : t.written = ⟨.ident, word, false⟩)
    (h : skips t.index = false) (he : element? t.index = some (.ruleRef ref))
    (hindex : ref.extent.start = t.index) (hu : u.written = ⟨.argAction, code, false⟩) :
    Adds skips element? glue [t, u]
      (" " ++ word ++ (" " ++ code) ++ markText (Element.ruleRef ref).marks) false := by
  obtain ⟨hkind, rfl, -⟩ := Written.mk.inj ht
  obtain ⟨hargs, rfl, -⟩ := Written.mk.inj hu
  refine ⟨lacksArguments_singleton (by rw [hkind]; decide), fun s more hs hmore => ?_⟩
  have hne : s ++ " " ++ t.text ≠ "" := by simp
  rw [show [t, u] ++ more = t :: u :: more from rfl, Alt.replay_arguments h he hargs,
    @Replay.token_of_text ⟨s, glue⟩ hs t]
  simp only [hkind, reduceCtorEq, decide_false, Bool.and_false, Bool.false_eq_true, if_false,
    Bool.false_and]
  rw [Replay.token_of_text hne, ← hindex,
    show ref.extent.start = (Element.ruleRef ref).extent.start from rfl, Element.optionsText_eq,
    options_markText]
  simp [hargs, String.append_assoc]

end Adds

/-! ## From nothing on -/

/-- What is replayed behind a text. -/
def Replay.behind (out : Replay) (s : String) : Replay :=
  ⟨s ++ out.text, out.glue⟩

theorem Replay.token_behind {out : Replay} (hout : out.text ≠ "") (s : String) (t : Token) :
    (out.behind s).token t = (out.token t).behind s ∧ (out.token t).text ≠ "" := by
  have hne : (out.behind s).text ≠ "" := by simp [behind, hout]
  rw [token_of_text hne, token_of_text hout]
  exact ⟨by simp [behind, String.append_assoc], by simp [hout]⟩

theorem Replay.options_behind {out : Replay} (hout : out.text ≠ "") (s text : String) :
    (out.behind s).options text = (out.options text).behind s ∧ (out.options text).text ≠ "" := by
  unfold options
  split
  · exact ⟨rfl, hout⟩
  · exact ⟨by simp [raw, behind, String.append_assoc], by simp [raw, hout]⟩

namespace Alt

variable {skips : Nat → Bool} {element? : Nat → Option Element} {s : String}

/-- Once a token is written, what was written before it does not matter. -/
theorem replay_behind (out out' : Replay) (ts : List Token)
    (h : ∀ t ∈ ts, out'.token t = (out.token t).behind s ∧ (out.token t).text ≠ "") :
    (replay skips element? out ts = out ∧ replay skips element? out' ts = out') ∨
      (replay skips element? out' ts = (replay skips element? out ts).behind s ∧
        (replay skips element? out ts).text ≠ "") := by
  -- what is written next stands behind the text in either case
  have hnext : ∀ {out : Replay} {ts : List Token}, out.text ≠ "" →
      (replay skips element? out ts = out ∧
        replay skips element? (out.behind s) ts = out.behind s) ∨
      (replay skips element? (out.behind s) ts = (replay skips element? out ts).behind s ∧
        (replay skips element? out ts).text ≠ "") →
      replay skips element? (out.behind s) ts = (replay skips element? out ts).behind s ∧
        (replay skips element? out ts).text ≠ "" := by
    rintro out ts hout (⟨hsame, hsame'⟩ | hbehind)
    · rw [hsame, hsame']
      exact ⟨rfl, hout⟩
    · exact hbehind
  fun_induction replay skips element? out ts generalizing out' with
  | case1 out => exact .inl ⟨rfl, rfl⟩
  | case2 out t ts hskips ih =>
      rw [replay_skipped hskips]
      exact ih out' fun u hu => h u (List.mem_cons_of_mem _ hu)
  | case3 out t ts hskips he ih =>
      obtain ⟨htoken, hne⟩ := h t (List.mem_cons_self ..)
      rw [replay_plain (Bool.eq_false_iff.mpr hskips) he, htoken]
      exact .inr (hnext hne (ih _ fun u _ => Replay.token_behind hne s u))
  | case4 out t hskips ref u us hu he options ih =>
      obtain ⟨htoken, hne⟩ := h t (List.mem_cons_self ..)
      obtain ⟨htoken', hne'⟩ := Replay.token_behind hne s u
      obtain ⟨hoptions, hne''⟩ := Replay.options_behind hne' s options
      rw [replay_arguments (Bool.eq_false_iff.mpr hskips) he hu, htoken, htoken', hoptions]
      exact .inr (hnext hne'' (ih _ fun v _ => Replay.token_behind hne'' s v))
  | case5 out t hskips ref u us hu he options ih =>
      obtain ⟨htoken, hne⟩ := h t (List.mem_cons_self ..)
      obtain ⟨hoptions, hne'⟩ := Replay.options_behind hne s options
      rw [replay_marked (Bool.eq_false_iff.mpr hskips) he (by simpa using hu), htoken, hoptions]
      exact .inr (hnext hne' (ih _ fun v _ => Replay.token_behind hne' s v))
  | case6 out t hskips e he options ts hno ih =>
      obtain ⟨htoken, hne⟩ := h t (List.mem_cons_self ..)
      obtain ⟨hoptions, hne'⟩ := Replay.options_behind hne s options
      rw [replay, if_neg hskips, he]
      dsimp only
      split
      · next ref u us => exact (hno ref u us rfl rfl).elim
      · rw [htoken, hoptions]
        exact .inr (hnext hne' (ih _ fun v _ => Replay.token_behind hne' s v))

end Alt

/-- What tokens add to a text, if they add anything, is a space and what is replayed from nothing
on. -/
theorem Adds.eq_space_append {skips : Nat → Bool} {element? : Nat → Option Element}
    {tokens : List Token} {text : String} {glue' : Bool}
    (h : Adds skips element? false tokens text glue') (htokens : ∀ t ∈ tokens, t.text ≠ "")
    (htext : text ≠ "") : text = " " ++ (Alt.replay skips element? .empty tokens).text := by
  have hadds := h.replay_eq "x" [] (by decide) nofun
  rw [List.append_nil] at hadds
  have hx : (Replay.mk "x" false).text ≠ "" := by decide
  have hbehind := @Alt.replay_behind skips element? "x " .empty ⟨"x", false⟩ tokens fun t ht => by
      rw [Replay.token_of_text hx]
      refine ⟨?_, by simpa [Replay.token, Replay.empty] using htokens t ht⟩
      simp [Replay.behind, Replay.token, Replay.empty]
  rcases hbehind with ⟨-, hsame⟩ | ⟨hbehind, -⟩
  · rw [hsame] at hadds
    have hsame : "x" ++ "" = "x" ++ text := (Replay.mk.inj hadds).1
    exact absurd ((String.append_right_inj _).mp hsame).symm htext
  · rw [hbehind] at hadds
    have hsame : "x" ++ " " ++ _ = "x" ++ text := congrArg Replay.text hadds
    rw [String.append_assoc] at hsame
    exact ((String.append_right_inj _).mp hsame).symm

end GrammarCompiler
