import GrammarCompiler.Proofs.Ast.Bare
import GrammarCompiler.Proofs.Grammar.Derives
import GrammarCompiler.Proofs.Grammar.Nullable
import Mathlib.Computability.Language
import Mathlib.Order.CompletePartialOrder

/-!
# Texts as languages

If it is known what texts rules have, those of elements are told by the elements alone: a sequence is a
product, a block a sum, and a suffix a star (`Element.texts`). Precedences are left out of it, and so
the options of elements make no difference (`Element.texts_bare`).

The texts that a parser derives are the least that go with each other in this way
(`Dialect.Derives.mem_rowTexts`). Conversely such texts are derived by elements that test no precedence
and call all rules with the precedence 0 (`Dialect.offers_rowTexts`).
-/

namespace GrammarCompiler

open Network (precedenceIn? firstSymbol)
open scoped Computability

namespace Dialect

/-! ## Leaves -/

section Leaves

variable (dialect : Dialect)

theorem inSet_withGrammar (grammar : Grammar) {e : Element} {n : Int} (h : dialect.InSet e n) :
    ({ dialect with grammar } : Dialect).InSet e n := by
  induction h with
  | character hkind hc => exact .character hkind hc
  | literal hkind htype => exact .literal hkind htype
  | range hfirst hlast => exact .range hfirst hlast
  | token hkind htype => exact .token hkind htype
  | set he _ ih => exact .set he ih

/-- What a leaf matches does not hang on the rules of the grammar. -/
theorem matches_withGrammar (grammar : Grammar) {e : Element} {n : Int} (h : dialect.Matches e n) :
    ({ dialect with grammar } : Dialect).Matches e n := by
  cases h with
  | token name options extent hkind => exact .token name options extent hkind
  | literal literal hkind => exact .literal literal hkind
  | range hfirst hlast => exact .range hfirst hlast
  | wildcard hleast hgreatest => exact .wildcard hleast hgreatest
  | set hset => exact .set (dialect.inSet_withGrammar grammar hset)
  | not hleast hgreatest hnot =>
      exact .not hleast hgreatest fun hset =>
        hnot (inSet_withGrammar { dialect with grammar } dialect.grammar hset)

variable {dialect}

theorem inSet_bare {e : Element} {n : Int} (h : dialect.InSet e n) : dialect.InSet e.bare n := by
  induction h with
  | character hkind hc => exact .character hkind hc
  | literal hkind htype => exact .literal hkind htype
  | range hfirst hlast => exact .range hfirst hlast
  | token hkind htype => exact .token hkind htype
  | @set elements extent e n he _ ih =>
      exact .set (Element.mem_allBare.mpr ⟨e, he, rfl⟩) ih

theorem inSet_of_bare {e : Element} {n : Int} (h : dialect.InSet e.bare n) : dialect.InSet e n := by
  generalize hbare : e.bare = bare at h
  induction h generalizing e with
  | character hkind hc =>
      cases e with
      | quotation literal => cases hbare; exact .character hkind hc
      | _ => cases hbare
  | literal hkind htype =>
      cases e with
      | quotation literal => cases hbare; exact .literal hkind htype
      | _ => cases hbare
  | range hfirst hlast =>
      cases e with
      | range first last extent => cases hbare; exact .range hfirst hlast
      | _ => cases hbare
  | token hkind htype =>
      cases e with
      | tokenRef name options extent => cases hbare; exact .token hkind htype
      | _ => cases hbare
  | set he _ ih =>
      cases e with
      | set elements extent =>
          cases hbare
          obtain ⟨inner, hinner, hsame⟩ := Element.mem_allBare.mp he
          exact .set hinner (ih hsame)
      | _ => cases hbare

theorem matches_bare {e : Element} {n : Int} : dialect.Matches e.bare n ↔ dialect.Matches e n := by
  constructor
  · intro h
    generalize hbare : e.bare = bare at h
    cases h with
    | token name options extent hkind =>
        cases e with
        | tokenRef => cases hbare; exact .token _ _ _ hkind
        | _ => cases hbare
    | literal literal hkind =>
        cases e with
        | quotation => cases hbare; exact .literal _ hkind
        | _ => cases hbare
    | range hfirst hlast =>
        cases e with
        | range => cases hbare; exact .range hfirst hlast
        | _ => cases hbare
    | wildcard hleast hgreatest =>
        cases e with
        | wildcard => cases hbare; exact .wildcard hleast hgreatest
        | _ => cases hbare
    | set hset =>
        cases e with
        | set elements extent => exact .set (inSet_of_bare (hbare.symm ▸ hset))
        | _ => cases hbare
    | not hleast hgreatest hnot =>
        cases e with
        | not operand extent =>
            cases hbare
            exact .not hleast hgreatest fun hset => hnot (inSet_bare hset)
        | _ => cases hbare
  · intro h
    cases h with
    | token name options extent hkind => exact .token _ _ _ hkind
    | literal literal hkind => exact .literal _ hkind
    | range hfirst hlast => exact .range hfirst hlast
    | wildcard hleast hgreatest => exact .wildcard hleast hgreatest
    | set hset => exact .set (inSet_bare hset)
    | not hleast hgreatest hnot =>
        exact .not hleast hgreatest fun hset => hnot (inSet_of_bare hset)

end Leaves

/-- The texts of an element that reads one symbol. -/
def leafTexts (dialect : Dialect) (e : Element) : Language Int :=
  { w | ∃ n, dialect.Matches e n ∧ w = [n] }

theorem leafTexts_bare (dialect : Dialect) (e : Element) :
    dialect.leafTexts e.bare = dialect.leafTexts e := by
  refine Language.ext fun w => ?_
  show (∃ n, dialect.Matches e.bare n ∧ w = [n]) ↔ ∃ n, dialect.Matches e n ∧ w = [n]
  simp only [matches_bare]

theorem leafTexts_withGrammar (dialect : Dialect) (grammar : Grammar) :
    ({ dialect with grammar } : Dialect).leafTexts = dialect.leafTexts := by
  funext e
  refine Language.ext fun w => exists_congr fun n => and_congr_left fun _ => ⟨fun h => ?_, fun h => ?_⟩
  · exact matches_withGrammar { dialect with grammar } dialect.grammar h
  · exact dialect.matches_withGrammar grammar h

end Dialect

/-! ## Languages -/

section Languages

variable (leaf : Element → Language Int) (calls : String → Language Int)

mutual
/-- The texts of an element, if `leaf` tells those of leaves and `calls` those of rules. -/
def Element.texts : Element → Language Int
  | .block alts _ _ => Alt.allTexts alts
  | .suffixed .optional _ element _ => 1 + element.texts
  | .suffixed .closure _ element _ => element.texts∗
  | .suffixed .positiveClosure _ element _ => element.texts * element.texts∗
  | .labeled _ _ _ element _ => element.texts
  | .ruleRef ref => calls ref.name
  | .action _ | .predicate _ | .command .. | .epsilon _ => 1
  | .tokenRef name options extent => leaf (.tokenRef name options extent)
  | .quotation literal => leaf (.quotation literal)
  | .range first last extent => leaf (.range first last extent)
  | .wildcard options extent => leaf (.wildcard options extent)
  | .not operand extent => leaf (.not operand extent)
  | .set elements extent => leaf (.set elements extent)

def Element.rowTexts : List Element → Language Int
  | [] => 1
  | e :: es => e.texts * Element.rowTexts es

def Alt.allTexts : List Alt → Language Int
  | [] => 0
  | ⟨elements, _, _, _, _⟩ :: as => Element.rowTexts elements + Alt.allTexts as
end

theorem Element.rowTexts_append (es fs : List Element) :
    Element.rowTexts leaf calls (es ++ fs) =
      Element.rowTexts leaf calls es * Element.rowTexts leaf calls fs := by
  induction es with
  | nil => exact (one_mul _).symm
  | cons e es ih => rw [List.cons_append, Element.rowTexts, Element.rowTexts, ih, mul_assoc]

theorem Alt.mem_allTexts {alts : List Alt} {w : List Int} : w ∈ Alt.allTexts leaf calls alts ↔
    ∃ alt ∈ alts, w ∈ Element.rowTexts leaf calls alt.elements := by
  induction alts with
  | nil =>
      rw [Alt.allTexts]
      exact ⟨fun h => absurd h (Language.notMem_zero w), nofun⟩
  | cons alt alts ih =>
      obtain ⟨elements, options, label, extent, info⟩ := alt
      rw [Alt.allTexts, Language.mem_add, ih]
      simp

variable {leaf}

mutual
theorem Element.texts_bare (hleaf : ∀ e : Element, leaf e.bare = leaf e) :
    ∀ e : Element, e.bare.texts leaf calls = e.texts leaf calls
  | .block alts _ _ => Alt.allTexts_bare hleaf alts
  | .suffixed suffix _ element _ => by
      have helement := Element.texts_bare hleaf element
      cases suffix with
      | optional => exact congrArg (1 + ·) helement
      | closure => exact congrArg (·∗) helement
      | positiveClosure => exact congrArg (fun l : Language Int => l * l∗) helement
  | .labeled _ _ _ element _ => Element.texts_bare hleaf element
  | .ruleRef _ | .action _ | .predicate _ | .command .. | .epsilon _ => rfl
  | .tokenRef name options extent => hleaf (.tokenRef name options extent)
  | .quotation literal => hleaf (.quotation literal)
  | .range first last extent => hleaf (.range first last extent)
  | .wildcard options extent => hleaf (.wildcard options extent)
  | .not operand extent => hleaf (.not operand extent)
  | .set elements extent => hleaf (.set elements extent)

theorem Element.rowTexts_bare (hleaf : ∀ e : Element, leaf e.bare = leaf e) :
    ∀ es : List Element,
      Element.rowTexts leaf calls (Element.allBare es) = Element.rowTexts leaf calls es
  | [] => rfl
  | e :: es => congrArg₂ (· * ·) (Element.texts_bare hleaf e) (Element.rowTexts_bare hleaf es)

theorem Alt.allTexts_bare (hleaf : ∀ e : Element, leaf e.bare = leaf e) :
    ∀ as : List Alt, Alt.allTexts leaf calls (Alt.allBare as) = Alt.allTexts leaf calls as
  | [] => rfl
  | ⟨elements, _, _, _, _⟩ :: as =>
      congrArg₂ (· + ·) (Element.rowTexts_bare hleaf elements) (Alt.allTexts_bare hleaf as)
end

/-- Rows that differ in their options and places have the same texts. -/
theorem Element.rowTexts_congr (hleaf : ∀ e : Element, leaf e.bare = leaf e) {es fs : List Element}
    (h : Element.allBare es = Element.allBare fs) :
    Element.rowTexts leaf calls es = Element.rowTexts leaf calls fs := by
  rw [← Element.rowTexts_bare calls hleaf es, h, Element.rowTexts_bare calls hleaf fs]

end Languages

/-! ## Suffixes -/

section Suffixes

variable (leaf : Element → Language Int) (calls : String → Language Int) (greedy : Bool)
  (inner : Element) (extent : Extent) {suffix : Suffix}

theorem one_le_texts_suffixed (h : suffix ≠ .positiveClosure) :
    1 ≤ Element.texts leaf calls (.suffixed suffix greedy inner extent) := by
  cases suffix with
  | optional => exact le_self_add
  | closure => exact one_le_kstar
  | positiveClosure => contradiction

theorem texts_le_texts_suffixed :
    inner.texts leaf calls ≤ Element.texts leaf calls (.suffixed suffix greedy inner extent) := by
  cases suffix with
  | optional => exact le_add_self
  | closure => exact le_kstar
  | positiveClosure => exact le_mul_of_one_le_right' one_le_kstar

theorem texts_mul_le_texts_suffixed (h : suffix ≠ .optional) :
    inner.texts leaf calls * Element.texts leaf calls (.suffixed suffix greedy inner extent) ≤
      Element.texts leaf calls (.suffixed suffix greedy inner extent) := by
  cases suffix with
  | optional => contradiction
  | closure => exact mul_kstar_le_kstar
  | positiveClosure => exact mul_le_mul_right mul_kstar_le_kstar _

end Suffixes

/-! ## Derivations -/

namespace Dialect

variable {dialect : Dialect} {calls : String → Language Int}

theorem mem_texts_of_matches {e : Element} {n : Int} (h : dialect.Matches e n) :
    [n] ∈ e.texts dialect.leafTexts calls := by
  have hleaf : [n] ∈ dialect.leafTexts e := ⟨n, h, rfl⟩
  cases h <;> exact hleaf

theorem Empty.nil_mem_texts {e : Element} (h : Empty e) : [] ∈ e.texts dialect.leafTexts calls := by
  cases h <;> exact Language.nil_mem_one

/-- Whether what rules are said to derive goes with the texts of their alternatives. -/
def Closed (dialect : Dialect) (calls : String → Language Int) : Prop :=
  ∀ name definition, dialect.Defines name definition → ∀ alt ∈ definition.alts,
    Element.rowTexts dialect.leafTexts calls alt.elements ≤ calls name

theorem mem_mul_of_le {l l' m : Language Int} (h : l ≤ l') {w : List Int} (hw : w ∈ l * m) :
    w ∈ l' * m :=
  (mul_le_mul_left h m : l * m ≤ l' * m) hw

/-- What a parser derives has texts that go with those of the rules. -/
theorem Derives.mem_rowTexts (hkind : dialect.kind = .parser) (hcalls : dialect.Closed calls)
    {entry : Int} {row : List Element} {w : List Int} (h : dialect.Derives entry row w) :
    w ∈ Element.rowTexts dialect.leafTexts calls row := by
  induction h with
  | done => exact Language.nil_mem_one
  | symbol hmatches _ ih => exact Language.append_mem_mul (mem_texts_of_matches hmatches) ih
  | word hlexer => exact absurd (hkind.symm.trans hlexer) nofun
  | @call _ e name _ definition alt _ _ _ hcall hdefines halt _ _ ihbody ihrow =>
      rw [hkind] at hcall
      cases e with
      | ruleRef ref =>
          obtain ⟨rfl, -⟩ := Prod.mk.inj (Option.some.inj hcall)
          exact Language.append_mem_mul (hcalls _ definition hdefines alt halt ihbody) ihrow
      | _ => cases hcall
  | empty hempty _ ih => exact Language.append_mem_mul hempty.nil_mem_texts ih
  | precedence _ _ _ ih => exact Language.append_mem_mul Language.nil_mem_one ih
  | labeled _ ih => exact ih
  | @block _ alts _ _ alt row _ halt _ ih =>
      rw [Element.rowTexts_append] at ih
      exact mem_mul_of_le (fun u hu => (Alt.mem_allTexts _ _).mpr ⟨alt, halt, hu⟩) ih
  | skip hsuffix _ ih =>
      exact Language.append_mem_mul (one_le_texts_suffixed _ _ _ _ _ hsuffix Language.nil_mem_one) ih
  | once _ ih => exact mem_mul_of_le (texts_le_texts_suffixed _ _ _ _ _) ih
  | @again _ suffix greedy inner extent row w hsuffix _ ih =>
      have hmul : w ∈ (inner.texts dialect.leafTexts calls *
          Element.texts dialect.leafTexts calls (.suffixed suffix greedy inner extent)) *
            Element.rowTexts dialect.leafTexts calls row := by
        rw [mul_assoc]
        exact ih
      exact mem_mul_of_le (texts_mul_le_texts_suffixed _ _ _ _ _ hsuffix) hmul

end Dialect

/-- Whether an element neither tests a precedence nor calls a rule with another precedence than 0. -/
def Element.IsLevel : Element → Prop
  | .ruleRef ref => (precedenceIn? ref.options).getD 0 = 0
  | .predicate code => precedenceIn? code.options = none
  | _ => True

namespace Dialect

/-- Whether elements may stand in front of any row with all texts of a language. -/
def Offers (dialect : Dialect) (entry : Int) (es : List Element) (l : Language Int) : Prop :=
  ∀ u ∈ l, ∀ row w, dialect.Derives entry row w → dialect.Derives entry (es ++ row) (u ++ w)

section Offers

variable {dialect : Dialect} {entry : Int} {es fs : List Element} {l m : Language Int}

theorem Offers.derives (h : dialect.Offers entry es l) {u : List Int} (hu : u ∈ l) :
    dialect.Derives entry es u := by
  have hrow := h u hu [] [] (.done entry)
  rwa [List.append_nil, List.append_nil] at hrow

/-- What matches the empty text may be left out. -/
theorem offers_one (h : ∀ row w, dialect.Derives entry row w → dialect.Derives entry (es ++ row) w) :
    dialect.Offers entry es 1 := by
  intro u hu row w hrow
  obtain rfl := (Language.mem_one u).mp hu
  exact h row w hrow

theorem Offers.append (h : dialect.Offers entry es l) (h' : dialect.Offers entry fs m) :
    dialect.Offers entry (es ++ fs) (l * m) := by
  intro _ huv row w hrow
  obtain ⟨u, hu, v, hv, rfl⟩ := Language.mem_mul.mp huv
  rw [List.append_assoc, List.append_assoc]
  exact h u hu _ _ (h' v hv row w hrow)

/-- What may come several times may come once and then any number of times. -/
theorem Offers.again {inner : Element} (h : dialect.Offers entry [inner] l) {suffix : Suffix}
    (hsuffix : suffix ≠ .optional) (greedy : Bool) (extent : Extent) :
    dialect.Offers entry [.suffixed suffix greedy inner extent] (l * l∗) := by
  intro _ huv row w hrow
  obtain ⟨u, hu, v, hv, rfl⟩ := Language.mem_mul.mp huv
  obtain ⟨rounds, rfl, hrounds⟩ := Language.mem_kstar.mp hv
  clear huv hv
  rw [List.append_assoc]
  induction rounds generalizing u with
  | nil => exact .once (h u hu row w hrow)
  | cons round rounds ih =>
      obtain ⟨hround, hrounds⟩ := List.forall_mem_cons.mp hrounds
      rw [List.flatten_cons, List.append_assoc]
      exact .again hsuffix (h u hu _ _ (ih round hround hrounds))

theorem Offers.closure {inner : Element} (h : dialect.Offers entry [inner] l) (greedy : Bool)
    (extent : Extent) : dialect.Offers entry [.suffixed .closure greedy inner extent] l∗ := by
  intro u hu row w hrow
  rw [← Language.one_add_self_mul_kstar_eq_kstar] at hu
  rcases (Language.mem_add _ _ _).mp hu with hu | hu
  · obtain rfl := (Language.mem_one u).mp hu
    exact .skip nofun hrow
  · exact h.again (show Suffix.closure ≠ .optional from nofun) greedy extent u hu row w hrow

end Offers

/-- Whether rules derive what they are said to. -/
def Backs (dialect : Dialect) (calls : String → Language Int) : Prop :=
  ∀ name, ∀ u ∈ calls name, ∃ definition, dialect.Defines name definition ∧
    dialect.DerivesRule definition 0 u

section Level

variable {dialect : Dialect} {calls : String → Language Int}

mutual
theorem offers_texts (hcalls : dialect.Backs calls) (entry : Int) : ∀ e : Element,
    (∀ node ∈ e.nodes, node.IsLevel) → dialect.Offers entry [e] (e.texts dialect.leafTexts calls)
  | .block alts _ _, hlevel => fun _ hu _ _ hrow =>
      let ⟨_, halt, h⟩ := exists_offers hcalls entry alts (List.forall_mem_cons.mp hlevel).2 _ hu
      .block halt (h _ _ hrow)
  | .suffixed .optional _ element _, hlevel => fun _ hu _ _ hrow => by
      rcases (Language.mem_add _ _ _).mp hu with hu | hu
      · obtain rfl := (Language.mem_one _).mp hu
        exact .skip nofun hrow
      · exact .once (offers_texts hcalls entry element (List.forall_mem_cons.mp hlevel).2 _ hu _ _ hrow)
  | .suffixed .closure greedy element extent, hlevel =>
      (offers_texts hcalls entry element (List.forall_mem_cons.mp hlevel).2).closure greedy extent
  | .suffixed .positiveClosure greedy element extent, hlevel =>
      (offers_texts hcalls entry element (List.forall_mem_cons.mp hlevel).2).again
        (show Suffix.positiveClosure ≠ .optional from nofun) greedy extent
  | .labeled _ _ _ element _, hlevel => fun _ hu _ _ hrow =>
      .labeled (offers_texts hcalls entry element (List.forall_mem_cons.mp hlevel).2 _ hu _ _ hrow)
  | .ruleRef ref, hlevel => fun _ hu _ _ hrow => by
      obtain ⟨definition, hdefines, alt, halt, hbody⟩ := hcalls ref.name _ hu
      refine .call (show calls? dialect.kind (.ruleRef ref) = some (ref.name, 0) from ?_) hdefines halt
        hbody hrow
      exact congrArg (fun precedence => some (ref.name, precedence)) (hlevel _ (mem_nodes_self _))
  | .action code, _ => offers_one fun _ _ => .empty (.action code)
  | .predicate _, hlevel => offers_one fun _ _ => .empty (.predicate (hlevel _ (mem_nodes_self _)))
  | .command name arg extent, _ => offers_one fun _ _ => .empty (.command name arg extent)
  | .epsilon extent, _ => offers_one fun _ _ => .empty (.epsilon extent)
  | .tokenRef .., _ | .quotation _, _ | .range .., _ | .wildcard .., _ | .not .., _ | .set .., _ =>
      fun _ ⟨_, hmatches, heq⟩ _ _ hrow => heq ▸ .symbol hmatches hrow

/-- Elements that are level derive the texts that go with those of the rules. -/
theorem offers_rowTexts (hcalls : dialect.Backs calls) (entry : Int) : ∀ es : List Element,
    (∀ node ∈ Element.listNodes es, node.IsLevel) →
      dialect.Offers entry es (Element.rowTexts dialect.leafTexts calls es)
  | [], _ => offers_one fun _ _ hrow => hrow
  | e :: es, hlevel =>
      have ⟨he, hes⟩ := List.forall_mem_append.mp hlevel
      (offers_texts hcalls entry e he).append (offers_rowTexts hcalls entry es hes)

theorem exists_offers (hcalls : dialect.Backs calls) (entry : Int) : ∀ alts : List Alt,
    (∀ node ∈ Alt.listNodes alts, node.IsLevel) → ∀ u ∈ Alt.allTexts dialect.leafTexts calls alts,
      ∃ alt ∈ alts, ∀ row w, dialect.Derives entry row w →
        dialect.Derives entry (alt.elements ++ row) (u ++ w)
  | [], _, u, hu => absurd hu (Language.notMem_zero u)
  | ⟨elements, _, _, _, _⟩ :: as, hlevel, u, hu => by
      obtain ⟨hfirst, has⟩ := List.forall_mem_append.mp hlevel
      rcases (Language.mem_add _ _ _).mp hu with hu | hu
      · exact ⟨_, List.mem_cons_self .., offers_rowTexts hcalls entry elements hfirst u hu⟩
      · obtain ⟨alt, halt, h⟩ := exists_offers hcalls entry as has u hu
        exact ⟨alt, List.mem_cons_of_mem _ halt, h⟩
end

end Level

end Dialect

end GrammarCompiler
