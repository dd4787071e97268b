import GrammarCompiler.Proofs.Ast.Bare
import GrammarCompiler.Proofs.Grammar.Derives
import GrammarCompiler.Proofs.Grammar.Numbered
import Mathlib.Logic.Relation

/-!
# Left calls

A rule calls another one on its left if it may come to it before anything has been read, so if all
that stands in front of it can be stepped over. `Dialect.Skips` says which elements can be, by the
elements alone, and `Dialect.Meets` which rules a row comes to. A name that no rule has matches the empty
text here, as it does in a network.

Options are not looked at, so neither are precedences: what can be stepped over is not changed by them
(`Dialect.skips_of_bare`, `Dialect.meets_of_allBare`).
-/

namespace GrammarCompiler

namespace Dialect

variable (dialect : Dialect)

def callee? (e : Element) : Option String :=
  (calls? dialect.kind e).map (·.1)

/-- Elements that can be stepped over. What is optional or repeated can be left out, a name can be if one
of the alternatives of its rule can or there is no such rule. -/
inductive Skips : Element → Prop
  | action (code : Snippet) : Skips (.action code)
  | predicate (code : Snippet) : Skips (.predicate code)
  | command (name : String) (arg : Option String) (extent : Extent) : Skips (.command name arg extent)
  | epsilon (extent : Extent) : Skips (.epsilon extent)
  | labeled {isList : Bool} {label : String} {labelToken : Nat} {inner : Element} {extent : Extent} :
    Skips inner → Skips (.labeled isList label labelToken inner extent)
  | skipped {suffix : Suffix} {greedy : Bool} {inner : Element} {extent : Extent} :
    suffix ≠ .positiveClosure → Skips (.suffixed suffix greedy inner extent)
  | repeated {suffix : Suffix} {greedy : Bool} {inner : Element} {extent : Extent} : Skips inner →
    Skips (.suffixed suffix greedy inner extent)
  | block {alts : List Alt} {options : Options} {extent : Extent} {alt : Alt} : alt ∈ alts →
    (∀ e ∈ alt.elements, Skips e) → Skips (.block alts options extent)
  | missing {e : Element} {name : String} : dialect.callee? e = some name →
    dialect.rule? name = none → Skips e
  | reference {e : Element} {name : String} {definition : RuleDef} {alt : Alt} :
    dialect.callee? e = some name → dialect.Defines name definition → alt ∈ definition.alts →
    (∀ part ∈ alt.elements, Skips part) → Skips e

def SkipsRule (name : String) : Prop :=
  ∃ definition, dialect.Defines name definition ∧ ∃ alt ∈ definition.alts,
    ∀ e ∈ alt.elements, dialect.Skips e

/-- The rules that a row comes to before anything has been read. -/
inductive Meets : List Element → String → Prop
  | call {e : Element} {row : List Element} {name : String} : dialect.callee? e = some name →
    Meets (e :: row) name
  | labeled {isList : Bool} {label : String} {labelToken : Nat} {inner : Element} {extent : Extent}
    {row : List Element} {name : String} : Meets [inner] name →
      Meets (.labeled isList label labelToken inner extent :: row) name
  | block {alts : List Alt} {options : Options} {extent : Extent} {alt : Alt} {row : List Element}
    {name : String} : alt ∈ alts → Meets alt.elements name →
      Meets (.block alts options extent :: row) name
  | suffixed {suffix : Suffix} {greedy : Bool} {inner : Element} {extent : Extent}
    {row : List Element} {name : String} : Meets [inner] name →
      Meets (.suffixed suffix greedy inner extent :: row) name
  | behind {e : Element} {row : List Element} {name : String} : dialect.Skips e → Meets row name →
    Meets (e :: row) name

/-- A rule calls another one on its left. -/
def LeftCalls (caller callee : String) : Prop :=
  (∃ rule, dialect.rule? callee = some rule) ∧ ∃ definition, dialect.Defines caller definition ∧
    ∃ alt ∈ definition.alts, dialect.Meets alt.elements callee

variable {dialect}

theorem mem_of_rule? {name : String} {rule : Rule} (h : dialect.rule? name = some rule) :
    rule ∈ dialect.grammar.rules :=
  List.mem_of_find?_eq_some (Option.filter_eq_some_iff.mp h).1

theorem name_of_rule? {name : String} {rule : Rule} (h : dialect.rule? name = some rule) :
    rule.name = name :=
  Grammar.name_of_rule? (Option.filter_eq_some_iff.mp h).1

theorem callee?_of_calls? {e : Element} {name : String} {precedence : Int}
    (h : calls? dialect.kind e = some (name, precedence)) : dialect.callee? e = some name := by
  unfold callee?
  rw [h]
  rfl

/-! ## Rows -/

theorem Meets.append {row : List Element} {name : String} (h : dialect.Meets row name)
    (back : List Element) : dialect.Meets (row ++ back) name := by
  induction h with
  | call hcallee => exact .call hcallee
  | labeled hinner _ => exact .labeled hinner
  | block halt hmeets _ => exact .block halt hmeets
  | suffixed hinner _ => exact .suffixed hinner
  | behind hskips _ ih => exact .behind hskips ih

theorem Meets.prepend {front row : List Element} {name : String}
    (hfront : ∀ e ∈ front, dialect.Skips e) (h : dialect.Meets row name) :
    dialect.Meets (front ++ row) name := by
  induction front with
  | nil => exact h
  | cons e front ih =>
      obtain ⟨he, hfront⟩ := List.forall_mem_cons.mp hfront
      exact .behind he (ih hfront)

/-- What is met in a row is met in its front, or behind the front if that can be stepped over. -/
theorem meets_append {front back : List Element} {name : String} :
    dialect.Meets (front ++ back) name ↔ dialect.Meets front name ∨
      (∀ e ∈ front, dialect.Skips e) ∧ dialect.Meets back name := by
  constructor
  · intro h
    induction front with
    | nil => exact .inr ⟨nofun, h⟩
    | cons e front ih =>
        cases h with
        | call hcallee => exact .inl (.call hcallee)
        | labeled hinner => exact .inl (.labeled hinner)
        | block halt hmeets => exact .inl (.block halt hmeets)
        | suffixed hinner => exact .inl (.suffixed hinner)
        | behind hskips hrest =>
            rcases ih hrest with hfront | ⟨hfront, hback⟩
            · exact .inl (.behind hskips hfront)
            · exact .inr ⟨List.forall_mem_cons.mpr ⟨hskips, hfront⟩, hback⟩
  · rintro (h | ⟨hfront, h⟩)
    · exact h.append back
    · exact h.prepend hfront

theorem meets_block {alts : List Alt} {options : Options} {extent : Extent} {name : String} :
    dialect.Meets [.block alts options extent] name ↔
      ∃ alt ∈ alts, dialect.Meets alt.elements name := by
  constructor
  · intro h
    cases h with
    | call hcallee => cases hcallee
    | block halt hmeets => exact ⟨_, halt, hmeets⟩
    | behind _ hrest => cases hrest
  · rintro ⟨alt, halt, hmeets⟩
    exact .block halt hmeets

theorem skips_block {alts : List Alt} {options : Options} {extent : Extent} :
    dialect.Skips (.block alts options extent) ↔
      ∃ alt ∈ alts, ∀ e ∈ alt.elements, dialect.Skips e := by
  constructor
  · intro h
    cases h with
    | block halt hskips => exact ⟨_, halt, hskips⟩
    | missing hcallee => cases hcallee
    | reference hcallee => cases hcallee
  · rintro ⟨alt, halt, hskips⟩
    exact .block halt hskips

/-! ## Options do not matter -/

theorem callee?_bare (e : Element) : dialect.callee? e.bare = dialect.callee? e := by
  cases e with
  | tokenRef =>
      unfold callee?
      show Option.map _ (if _ then _ else _) = Option.map _ (if _ then _ else _)
      split <;> rfl
  | _ => rfl

/-- What can be stepped over can be without its options, and the other way round. -/
theorem skips_of_bare {e f : Element} (h : dialect.Skips e) (hbare : e.bare = f.bare) :
    dialect.Skips f := by
  induction h generalizing f with
  | action => cases f <;> first | exact .action _ | cases hbare
  | predicate => cases f <;> first | exact .predicate _ | cases hbare
  | command => cases f <;> first | exact .command _ _ _ | cases hbare
  | epsilon => cases f <;> first | exact .epsilon _ | cases hbare
  | labeled _ ih =>
      cases f with
      | labeled isList label token inner extent => exact .labeled (ih (Element.labeled.inj hbare).2.2.2.1)
      | _ => cases hbare
  | skipped hsuffix =>
      cases f with
      | suffixed suffix greedy inner extent =>
          exact .skipped ((Element.suffixed.inj hbare).1 ▸ hsuffix)
      | _ => cases hbare
  | repeated _ ih =>
      cases f with
      | suffixed suffix greedy inner extent => exact .repeated (ih (Element.suffixed.inj hbare).2.2.1)
      | _ => cases hbare
  | block halt _ ih =>
      cases f with
      | block alts options extent =>
          obtain ⟨alt, halt, hsame⟩ := Alt.exists_of_allBare (Element.block.inj hbare).1 halt
          refine .block halt fun e he => ?_
          obtain ⟨part, hpart, hbare⟩ := Element.exists_of_allBare hsame he
          exact ih part hpart hbare
      | _ => cases hbare
  | missing hcallee hnone =>
      refine .missing ?_ hnone
      rw [← callee?_bare, ← hbare, callee?_bare, hcallee]
  | reference hcallee hdefines halt hskips _ =>
      refine .reference ?_ hdefines halt hskips
      rw [← callee?_bare, ← hbare, callee?_bare, hcallee]

theorem skips_of_allBare {es fs : List Element} (h : ∀ e ∈ es, dialect.Skips e)
    (hbare : Element.allBare es = Element.allBare fs) : ∀ f ∈ fs, dialect.Skips f := by
  intro f hf
  obtain ⟨e, he, hsame⟩ := Element.exists_of_allBare hbare hf
  exact skips_of_bare (h e he) hsame

/-- What is met in a row is met in the row without its options, and the other way round. -/
theorem meets_of_allBare {row row' : List Element} {name : String} (h : dialect.Meets row name)
    (hbare : Element.allBare row = Element.allBare row') : dialect.Meets row' name := by
  induction h generalizing row' with
  | call hcallee =>
      obtain ⟨e, rest, rfl, hsame, -⟩ := Element.allBare_eq_cons hbare.symm
      refine .call ?_
      rw [← callee?_bare, hsame, callee?_bare, hcallee]
  | labeled _ ih =>
      obtain ⟨e, rest, rfl, hsame, -⟩ := Element.allBare_eq_cons hbare.symm
      cases e with
      | labeled isList label token inner extent =>
          exact .labeled (ih (congrArg (fun e => [e]) (Element.labeled.inj hsame).2.2.2.1.symm))
      | _ => cases hsame
  | block halt _ ih =>
      obtain ⟨e, rest, rfl, hsame, -⟩ := Element.allBare_eq_cons hbare.symm
      cases e with
      | block alts options extent =>
          obtain ⟨alt, halt, hsame⟩ := Alt.exists_of_allBare (Element.block.inj hsame).1.symm halt
          exact .block halt (ih hsame)
      | _ => cases hsame
  | suffixed _ ih =>
      obtain ⟨e, rest, rfl, hsame, -⟩ := Element.allBare_eq_cons hbare.symm
      cases e with
      | suffixed suffix greedy inner extent =>
          exact .suffixed (ih (congrArg (fun e => [e]) (Element.suffixed.inj hsame).2.2.1.symm))
      | _ => cases hsame
  | behind hskips _ ih =>
      obtain ⟨e, rest, rfl, hsame, hrest⟩ := Element.allBare_eq_cons hbare.symm
      exact .behind (skips_of_bare hskips hsame.symm) (ih hrest.symm)

end Dialect

end GrammarCompiler
