import GrammarCompiler.Proofs.Token.Table
import GrammarCompiler.Proofs.TokenTree.Alike
import GrammarCompiler.Proofs.TokenTree.Printed

/-!
# Tokens written out again

The tokens of trees are replayed as the trees spread out (`TokenTree.spread`): groups in
parentheses are opened up, everything stands apart but for punctuation behind joint punctuation,
and groups in braces and brackets are printed as they are.

What is spread out is scanned as the lexemes of trees alike (`exists_lexes_spread`), as long as no
quotation mark stands alone (`AllQuoteFree`): the mark of a lifetime is joint too, but it is a word
that follows, which would be moved away from it.
-/

namespace GrammarCompiler

open Text (Position)

namespace TokenTree

def isPunct : TokenTree → Bool
  | leaf token _ => token.isPunct
  | group .. => false

mutual
def spreadTree : TokenTree → String
  | leaf token _ => token.text
  | group .parenthesis _ _ body => "(" ++ spread false body ++ " )"
  | group .brace _ _ body => delimited .brace (print body) body.isEmpty
  | group .bracket _ _ body => delimited .bracket (print body) body.isEmpty

/-- Trees as their tokens are replayed behind others, which end in joint punctuation if `glue` is
set. -/
def spread (glue : Bool) : List TokenTree → String
  | [] => ""
  | t :: ts => (if glue && t.isPunct then "" else " ") ++ spreadTree t ++ spread t.isJoint ts
end

/-- Whether joint punctuation comes last in trees behind others. -/
def glued (glue : Bool) : List TokenTree → Bool
  | [] => glue
  | t :: ts => glued t.isJoint ts

mutual
/-- Outside of braces and brackets no quotation mark stands alone. -/
def QuoteFree : TokenTree → Prop
  | leaf token _ => ∀ joint, token ≠ .punct '\'' joint
  | group .parenthesis _ _ body => AllQuoteFree body
  | group .brace _ _ _ => True
  | group .bracket _ _ _ => True

def AllQuoteFree : List TokenTree → Prop
  | [] => True
  | t :: ts => t.QuoteFree ∧ AllQuoteFree ts
end

theorem quoteFree_ident {text : String} {p : Position} : (leaf (.ident text) p).QuoteFree :=
  fun _ => nofun

theorem quoteFree_literal {text : String} {p : Position} : (leaf (.literal text) p).QuoteFree :=
  fun _ => nofun

theorem quoteFree_punct {c : Char} (hc : c ≠ '\'') {joint : Bool} {p : Position} :
    (leaf (.punct c joint) p).QuoteFree :=
  fun _ h => hc (Leaf.punct.inj h).1

end TokenTree

/-! ## Replaying the tokens of trees -/

namespace Replay

open TokenTree (spread spreadTree glued)

theorem token_of_text {out : Replay} (hout : out.text ≠ "") (t : Token) :
    out.token t = ⟨out.text ++ (if out.glue && t.kind = .punct then "" else " ") ++ t.text,
      t.kind = .punct && t.joint⟩ := by
  have hempty : out.text.isEmpty = false := by
    rw [← Bool.not_eq_true, String.isEmpty_iff]
    exact hout
  rw [token, hempty, Bool.false_or]

/-- One more token behind others. -/
theorem token_of_written {out : Replay} (hout : out.text ≠ "") {t : Token} {kind : TokenKind}
    {text : String} {joint : Bool} (ht : t.written = ⟨kind, text, joint⟩) :
    out.token t = ⟨out.text ++ (if out.glue && kind = .punct then "" else " ") ++ text,
      kind = .punct && joint⟩ := by
  obtain ⟨rfl, rfl, rfl⟩ := Written.mk.inj ht
  exact token_of_text hout t

theorem tokens_append (out : Replay) (ts us : List Token) :
    out.tokens (ts ++ us) = (out.tokens ts).tokens us :=
  List.foldl_append

theorem tokens_singleton {out : Replay} {ts : List Token} {kind : TokenKind} {text : String}
    {joint : Bool} (h : ts.map Token.written = [⟨kind, text, joint⟩]) (hout : out.text ≠ "") :
    out.tokens ts = ⟨out.text ++ (if out.glue && kind = .punct then "" else " ") ++ text,
      kind = .punct && joint⟩ := by
  obtain ⟨t, rfl, ht⟩ := List.map_eq_singleton_iff.mp h
  exact token_of_written hout ht

mutual
/-- The tokens of a tree are replayed as the tree is spread out. -/
theorem tokens_tree : ∀ (t : TokenTree) {out : Replay} {ts : List Token},
    ts.map Token.written = t.written → out.text ≠ "" → out.tokens ts =
      ⟨out.text ++ (if out.glue && t.isPunct then "" else " ") ++ spreadTree t, t.isJoint⟩
  | .leaf (.ident text) p, out, ts, h, hout
  | .leaf (.literal text) p, out, ts, h, hout
  | .leaf (.punct c joint) p, out, ts, h, hout => by
      rw [tokens_singleton h hout]
      simp [TokenTree.isPunct, Leaf.isPunct, spreadTree, Leaf.text, TokenTree.isJoint]
  | .group .brace opened closed body, out, ts, h, hout => by
      rw [tokens_singleton h hout, spreadTree]
      simp [TokenTree.isPunct, TokenTree.isJoint]
  | .group .bracket opened closed body, out, ts, h, hout => by
      rw [tokens_singleton h hout, spreadTree]
      simp [TokenTree.isPunct, TokenTree.isJoint]
  | .group .parenthesis opened closed body, out, ts, h, hout => by
      rw [TokenTree.written] at h
      obtain ⟨first, behind, rfl, hfirst, hbehind⟩ := List.map_eq_cons_iff.mp h
      obtain ⟨inner, last, rfl, hinner, hlast⟩ := List.map_eq_append_iff.mp hbehind
      have hopen := token_of_written hout hfirst
      have htext : (out.token first).text ≠ "" := by simp [hopen, hout]
      rw [tokens, List.foldl_cons, ← tokens, tokens_append, tokens_trees body hinner htext, hopen,
        tokens_singleton hlast (by simp [hout]), spreadTree]
      simp only [TokenTree.isPunct, TokenTree.isJoint, Bool.and_false, reduceCtorEq, decide_false,
        Bool.false_eq_true, if_false, String.append_assoc, show " )" = " " ++ ")" by decide]

/-- The tokens of trees are replayed as the trees are spread out. -/
theorem tokens_trees : ∀ (trees : List TokenTree) {out : Replay} {ts : List Token},
    ts.map Token.written = TokenTree.allWritten trees → out.text ≠ "" →
      out.tokens ts = ⟨out.text ++ spread out.glue trees, glued out.glue trees⟩
  | [], out, ts, h, _ => by
      rw [TokenTree.allWritten] at h
      rw [List.map_eq_nil_iff.mp h, spread, String.append_empty]
      rfl
  | t :: trees, out, ts, h, hout => by
      rw [TokenTree.allWritten] at h
      obtain ⟨front, back, rfl, hfront, hback⟩ := List.map_eq_append_iff.mp h
      rw [tokens_append, tokens_tree t hfront hout, tokens_trees trees hback (by simp [hout]),
        spread]
      simp only [String.append_assoc]
      rfl
end

end Replay

namespace TokenTable

open TokenTree (leaf spread widths allWritten)

/-- The text of tokens behind those of a table, the first of which is a name. -/
theorem text_of_written {table before : TokenTable} {word : String} {p : Position}
    {ts : List TokenTree} (hword : word ≠ "")
    (h : table.written = before.written ++ allWritten (leaf (.ident word) p :: ts)) :
    table.text before.size (before.size + widths ts) = word ++ spread false ts := by
  obtain ⟨front, back, htokens, hfront, hback⟩ := List.map_eq_append_iff.mp h
  have hlength : front.length = before.size := by
    rw [← length_written, ← hfront, List.length_map]
  rw [allWritten, TokenTree.written, List.singleton_append] at hback
  obtain ⟨first, behind, rfl, hfirst, hbehind⟩ := List.map_eq_cons_iff.mp hback
  have hwidth : behind.length = widths ts := by
    rw [← List.length_map Token.written, hbehind, TokenTree.length_allWritten]
  unfold text
  rw [htokens, List.take_of_length_le, ← hlength, List.drop_left, Replay.tokens, List.foldl_cons,
    ← Replay.tokens, Replay.tokens_trees ts hbehind]
  · obtain ⟨hkind, htext, -⟩ := Written.mk.inj hfirst
    simp [Replay.token, Replay.empty, hkind, htext]
  · obtain ⟨-, htext, -⟩ := Written.mk.inj hfirst
    simpa [Replay.token, Replay.empty, htext] using hword
  · simp only [List.length_append, List.length_cons]
    omega

end TokenTable

/-! ## Scanning what is spread out -/

namespace TokenTree

open Lexeme

theorem toList_spread_cons (glue : Bool) (t : TokenTree) (ts : List TokenTree) (rest : List Char) :
    (spread glue (t :: ts)).toList ++ rest =
      (if glue && t.isPunct then "" else " ").toList ++
        ((spreadTree t).toList ++ ((spread t.isJoint ts).toList ++ rest)) := by
  rw [spread, String.toList_append, String.toList_append, List.append_assoc, List.append_assoc]

theorem closed_spread (glue : Bool) (ts : List TokenTree) {rest : List Char}
    (hts : (glue && startsWithPunct ts) = false) (hrest : Closed rest) :
    Closed ((spread glue ts).toList ++ rest) := by
  cases ts with
  | nil =>
      rw [spread, String.toList_empty]
      exact hrest
  | cons t ts =>
      have hgap : (glue && t.isPunct) = false := by
        cases t with
        | leaf => exact hts
        | group => exact Bool.and_false _
      rw [toList_spread_cons, hgap]
      exact closed_cons (by decide)

theorem eq_punct_of_startsWithPunct {ts : List TokenTree} (h : startsWithPunct ts = true) :
    ∃ c joint p us, ts = leaf (.punct c joint) p :: us := by
  unfold startsWithPunct at h
  split at h
  · next token p us =>
      cases token with
      | punct c joint => exact ⟨c, joint, p, us, rfl⟩
      | _ => cases h
  · cases h

/-- Punctuation behind joint punctuation. -/
theorem joins_of_link {c d : Char} {joint : Bool} {ls : List Lexeme} (hc : c ≠ '\'')
    (h : Link (.leaf (.punct c true)) (.leaf (.punct d joint) :: ls)) :
    punctuation.contains d = true ∧ (c = '/' → d ≠ '/' ∧ d ≠ '*') := by
  obtain ⟨-, token, _, hnext, hjoins⟩ := h
  obtain rfl := Lexeme.leaf.inj (List.cons.inj hnext).1
  unfold Joins at hjoins
  rw [if_neg hc, Leaf.text, Char.toString, String.toList_singleton] at hjoins
  obtain ⟨d', ds, htext, hd, hslash⟩ := hjoins
  obtain ⟨rfl, -⟩ := List.cons.inj htext
  exact ⟨hd, hslash⟩

/-- What is spread out behind a slash begins no comment. -/
theorem noComment_spread {c : Char} (hc : c ≠ '\'') {joint : Bool} {ts : List TokenTree}
    {ms : List Lexeme} {rest : List Char}
    (h : Chain (.leaf (.punct c joint) :: (flats ts ++ ms))) (hrest : Closed rest) :
    NoComment c ((spread joint ts).toList ++ rest) := by
  cases hglue : joint && startsWithPunct ts with
  | false => exact (closed_spread _ _ hglue hrest).noComment c
  | true =>
      obtain ⟨rfl, hpunct⟩ := Bool.and_eq_true_iff.mp hglue
      obtain ⟨d, joint, p, us, rfl⟩ := eq_punct_of_startsWithPunct hpunct
      rw [flats_cons, flat_leaf] at h
      intro hslash e he
      rw [toList_spread_cons] at he
      obtain rfl : d = e := by
        simpa [isPunct, Leaf.isPunct, spreadTree, Leaf.text] using he
      exact (joins_of_link hc h.1).2 hslash

/-- A leaf in front of what is spread out behind it. -/
theorem lexes_spread_leaf {token : Leaf} {p : Position} (hquote : (leaf token p).QuoteFree)
    {ts : List TokenTree} {ms : List Lexeme} {rest : List Char}
    (h : Chain (.leaf token :: (flats ts ++ ms))) (hts : AllQuoteFree ts) (hrest : Closed rest) :
    ∃ token', (∀ {us}, Alike ts us → Alike (leaf token p :: ts) (leaf token' p :: us)) ∧
      Lexes (token.text.toList ++ ((spread (leaf token p).isJoint ts).toList ++ rest))
        [.leaf token'] ((spread (leaf token p).isJoint ts).toList ++ rest) := by
  cases token with
  | ident text =>
      have hclear := (closed_spread false ts rfl hrest).clear
      refine ⟨.ident text, .ident p p, ?_⟩
      have hword := Lexes.word (w := text.toList) (by rw [String.ofList_toList]; exact h.1) hclear
        (.refl _)
      rw [String.ofList_toList] at hword
      exact hword
  | literal text =>
      have hclear := (closed_spread false ts rfl hrest).clear
      refine ⟨.literal text, .literal p p, ?_⟩
      have hlink : Literal.length? text.toList = some text.toList.length := h.1
      show Lexes (text.toList ++ _) [.leaf (.literal text)] _
      rw [← String.ofList_toList (s := text)]
      generalize text.toList = w at hlink
      rw [String.toList_ofList]
      cases w with
      | nil => cases hlink
      | cons c w => exact Lexes.cons (head_literal hlink hclear) (.refl _)
  | punct c joint =>
      have hc : c ≠ '\'' := fun hc => hquote joint (hc ▸ rfl)
      have hpunct : punctuation.contains c = true := by cases joint <;> exact h.1.1
      refine ⟨.punct c (punct? ((spread joint ts).toList ++ rest)).isSome,
        fun halike => .punct p p (fun hstarts => ?_) halike, ?_⟩
      rotate_left
      · rw [Leaf.text, Char.toString, String.toList_singleton]
        exact Lexes.punct hpunct hc (noComment_spread hc h hrest) (.refl _)
      cases joint with
      | false => rw [(closed_spread false ts rfl hrest).punct?]; rfl
      | true =>
          obtain ⟨d, joint, q, us, rfl⟩ := eq_punct_of_startsWithPunct hstarts
          rw [flats_cons, flat_leaf] at h
          have hd : d ≠ '\'' := fun hd => hts.1 joint (hd ▸ rfl)
          rw [toList_spread_cons]
          simp only [isPunct, Leaf.isPunct, spreadTree, Leaf.text, Bool.and_self, if_true, isJoint,
            String.toList_empty, List.nil_append, Char.toString, String.toList_singleton,
            List.singleton_append]
          rw [punct?_of_noComment (noComment_spread hd h.2 hrest) (joins_of_link hc h.1).1]
          rfl

/-- What is spread out is scanned as the lexemes of trees alike. -/
theorem exists_lexes_spread : ∀ (ts : List TokenTree) (glue : Bool) {ms : List Lexeme}
    {rest : List Char}, AllQuoteFree ts → (∀ token, ms.head? ≠ some (.leaf token)) →
      Chain (flats ts ++ ms) → Closed rest →
      ∃ us, Alike ts us ∧ Lexes ((spread glue ts).toList ++ rest) (flats us) rest
  | [], glue, ms, rest, _, _, _, _ => ⟨[], .nil, by rw [spread]; exact .refl rest⟩
  | .leaf token p :: ts, glue, ms, rest, hquote, hms, h, hrest => by
      rw [flats_cons, flat_leaf, List.singleton_append, List.cons_append] at h
      obtain ⟨token', halike, hleaf⟩ := lexes_spread_leaf hquote.1 h hquote.2 hrest
      obtain ⟨us, hus, hlexes⟩ := exists_lexes_spread ts (leaf token p).isJoint hquote.2
        hms h.2 hrest
      refine ⟨leaf token' p :: us, halike hus, ?_⟩
      rw [toList_spread_cons, flats_cons, flat_leaf, spreadTree]
      exact lexes_separator (by split <;> simp) (hleaf.trans hlexes)
  | .group delimiter opened closed body :: ts, glue, ms, rest, hquote, hms, h, hrest => by
      have hbody : Chain (flats body ++ .closing delimiter :: (flats ts ++ ms)) := by
        rw [flats_cons, flat_group] at h
        simpa using h.2
      have hts : Chain (flats ts ++ ms) := by
        rw [flats_cons, List.append_assoc] at h
        exact h.right
      have hend : ∀ token, (Lexeme.closing delimiter :: (flats ts ++ ms)).head? ≠
          some (.leaf token) := by
        intro token h
        cases Option.some.inj h
      obtain ⟨us, hus, hlexes⟩ := exists_lexes_spread ts false hquote.2 hms hts hrest
      have hclosed := closed_spread false ts rfl hrest
      rw [toList_spread_cons, show (group delimiter opened closed body).isJoint = false from rfl]
      -- code is printed as it is
      have hcode : delimiter ≠ .parenthesis →
          spreadTree (group delimiter opened closed body) =
            text (group delimiter opened closed body) := by
        intro hne
        cases delimiter with
        | parenthesis => exact absurd rfl hne
        | _ => rw [spreadTree, text]; rfl
      by_cases hdelimiter : delimiter = .parenthesis
      · subst hdelimiter
        have hquoteBody : AllQuoteFree body := by
          have := hquote.1
          rwa [QuoteFree] at this
        have hbehind : Closed (' ' :: ')' :: ((spread false ts).toList ++ rest)) :=
          closed_cons (by decide)
        obtain ⟨body', hbody', hlexesBody⟩ := exists_lexes_spread body false hquoteBody hend hbody
          hbehind
        refine ⟨group .parenthesis opened closed body' :: us,
          .group _ _ _ _ hbody' (fun h => absurd rfl h) hus, ?_⟩
        refine lexes_separator (by split <;> simp) ?_
        have hopen := Lexes.lexeme (head_openParen fun ds hds =>
          absurd (closed_spread false body rfl hbehind '/' (congrArg List.head? hds)) (by decide))
        have hall := hopen.trans (hlexesBody.trans (.blank (by decide)
          (.closing (c := ')') rfl hlexes)))
        rw [spreadTree, flats_cons, flat_group]
        simpa using hall
      · refine ⟨group delimiter opened closed body :: us,
          .group _ _ _ _ (.refl body) (fun _ => rfl) hus, ?_⟩
        rw [hcode hdelimiter, flats_cons]
        refine lexes_separator (by split <;> simp) ((lexes_group delimiter
          (fun hrest => lexes_texts body (.inl rfl) hend hbody hrest)
          (fun hrest ds htext => (noComment_texts hend hbody hrest htext rfl '*' rfl).2 rfl)
          opened closed _).trans hlexes)
termination_by ts => sizes ts
decreasing_by all_goals simp [sizes, size]; try omega

/-- The text of trees behind a name, spread out, is read as trees alike. -/
theorem exists_parse_spread {source : String} {word : String} {p : Position} {ts : List TokenTree}
    (h : parse source = .ok (leaf (.ident word) p :: ts)) (hquote : AllQuoteFree ts) :
    word ≠ "" ∧ ∃ us, parse (word ++ spread false ts) = .ok us ∧
      Alike (leaf (.ident word) p :: ts) us := by
  have hchain := chain_of_parse h
  rw [flats_cons, flat_leaf] at hchain
  have hword : Text.isName word = true := hchain.1
  have hend : Closed [] := nofun
  have hbehind : Chain (flats ts ++ []) := by
    rw [List.append_nil]
    exact hchain.2
  obtain ⟨us, hus, hlexes⟩ := exists_lexes_spread ts false hquote (by nofun) hbehind hend
  have hfirst := Lexes.word (w := word.toList) (by rwa [String.ofList_toList])
    (closed_spread false ts rfl hend).clear hlexes
  rw [List.append_nil, String.ofList_toList, ← String.toList_append] at hfirst
  have hmark := head?_ne_byteOrderMark hword (spread false ts).toList
  rw [← String.toList_append] at hmark
  have hall : Lexes (word ++ spread false ts).toList (flats (leaf (.ident word) p :: us)) [] := by
    simpa using hfirst
  obtain ⟨vs, hparse, halike⟩ := parse_of_lexes hmark hall
  refine ⟨?_, vs, hparse, (Alike.ident p p hus).trans halike⟩
  rintro rfl
  exact absurd hword (by decide)

end TokenTree

end GrammarCompiler
