import GrammarCompiler.Model.Basic
import GrammarCompiler.Proofs.Grammar.Derives
import GrammarCompiler.Proofs.Model.Run

/-!
# Rows and their code

Steps of a model are the code of a row of elements (`Dialect.Coded`): each element is coded on its
own, one behind the other. Where all choices are open, the runs through the code of a row read what
the row derives (`CodedBy.runs_iff`). Both directions are inductions on what is given, the
derivation or the run, for whatever code or row belongs to it.
-/

namespace GrammarCompiler

open Network (precedenceIn?)

namespace Element

/-- Whether an element reads one symbol in a parser. -/
def isSymbol : Element → Bool
  | .tokenRef .. | .quotation _ | .wildcard .. | .set .. | .not .. => true
  | _ => false

/-- The elements in place of one that has no code of its own. -/
def opened? : Element → Option (List Element)
  | .epsilon _ | .command .. => some []
  | .labeled _ _ _ inner _ => some [inner]
  | .block [alt] _ _ => some alt.elements
  | _ => none

/-- The rows that a suffix chooses from. -/
def openings : Element → List (List Element)
  | .block alts _ _ => alts.map (·.elements)
  | e => [[e]]

theorem opened?_of_isSymbol {e : Element} (h : e.isSymbol = true) : e.opened? = none := by
  cases e <;> first | rfl | cases h

theorem opened?_of_many {alts : List Alt} (h : alts.length ≠ 1) {options : Options}
    {extent : Extent} : (block alts options extent).opened? = none := by
  unfold opened?
  split
  · contradiction
  · contradiction
  · contradiction
  · next heq =>
      obtain ⟨rfl, -⟩ := Element.block.inj heq
      exact absurd rfl h
  · rfl

theorem eq_singleton_of_opened? {alts : List Alt} {options : Options} {extent : Extent}
    {front : List Element} (h : (block alts options extent).opened? = some front) :
    ∃ alt, alts = [alt] ∧ front = alt.elements := by
  by_cases hone : alts.length = 1
  · obtain ⟨alt, rfl⟩ := List.length_eq_one_iff.mp hone
    exact ⟨alt, rfl, (Option.some.inj h).symm⟩
  · rw [opened?_of_many hone] at h
    cases h

theorem openings_of_ne {e : Element} (h : ∀ alts options extent, e ≠ .block alts options extent) :
    e.openings = [[e]] := by
  unfold openings
  split
  · exact absurd rfl (h _ _ _)
  · rfl

end Element

def Operation.Reads (most : Int) : Operation → Int → Prop
  | .matchToken type _, token => token = type
  | .matchSet set invert, token => set.Passes invert most token
  | .wildcard _, token => IsType most token
  | _, _ => False

/-- Whether a step does nothing but read a token. -/
def Operation.isReader : Operation → Bool
  | .matchToken .. | .matchSet .. | .wildcard _ => true
  | _ => false

namespace Dialect

/-- Steps are the code of a row of elements. -/
inductive Coded (dialect : Dialect) : List Operation → List Element → Prop
  | done : Coded dialect [] []
  | opens {e : Element} {front row : List Element} {ops : List Operation} :
    e.opened? = some front → Coded dialect ops (front ++ row) → Coded dialect ops (e :: row)
  | reads {op : Operation} {e : Element} {ops : List Operation} {row : List Element} :
    op.isReader = true → e.isSymbol = true →
    (∀ n, op.Reads dialect.greatest n ↔ dialect.Matches e n) →
    Coded dialect ops row → Coded dialect (op :: ops) (e :: row)
  | invoke {r : RuleRef} {label : Option String} {ops : List Operation} {row : List Element} :
    Coded dialect ops row →
      Coded dialect (.invoke r.name (precedenceIn? r.options) label :: ops) (.ruleRef r :: row)
  | action {code : Snippet} {ops : List Operation} {row : List Element} : Coded dialect ops row →
    Coded dialect (.action code.text :: ops) (.action code :: row)
  | predicate {code : Snippet} {ops : List Operation} {row : List Element} :
    precedenceIn? code.options = none → Coded dialect ops row →
      Coded dialect (.predicate code.text :: ops) (.predicate code :: row)
  | precedence {code : Snippet} {p : Int} {ops : List Operation} {row : List Element} :
    precedenceIn? code.options = some p → Coded dialect ops row →
      Coded dialect (.precedence p :: ops) (.predicate code :: row)
  | block {choice : Choice} {alts : List Alt} {options : Options} {extent : Extent}
    {ops : List Operation} {row : List Element} :
    choice.kind.isBlock = true → alts.length ≠ 1 → choice.alts.length = alts.length →
    (∀ (k : Nat) (code : AltCode) (alt : Alt), choice.alts[k]? = some code →
      alts[k]? = some alt → Coded dialect code.ops alt.elements) →
    Coded dialect ops row → Coded dialect (.choice choice :: ops) (.block alts options extent :: row)
  | optional {choice : Choice} {greedy : Bool} {inner : Element} {extent : Extent}
    {ops : List Operation} {row : List Element} :
    choice.kind.isBlock = false → choice.kind.isStar = false → choice.kind.isPlus = false →
    choice.alts.length = inner.openings.length →
    (∀ (k : Nat) (code : AltCode) (front : List Element), choice.alts[k]? = some code →
      inner.openings[k]? = some front → Coded dialect code.ops front) →
    Coded dialect ops row →
      Coded dialect (.choice choice :: ops) (.suffixed .optional greedy inner extent :: row)
  | star {choice : Choice} {code : AltCode} {greedy : Bool} {inner : Element} {extent : Extent}
    {ops : List Operation} {row : List Element} :
    choice.kind.isStar = true → choice.alts = [code] → Coded dialect code.ops [inner] →
    Coded dialect ops row →
      Coded dialect (.choice choice :: ops) (.suffixed .closure greedy inner extent :: row)
  | plus {choice : Choice} {code : AltCode} {greedy : Bool} {inner : Element} {extent : Extent}
    {ops : List Operation} {row : List Element} :
    choice.kind.isPlus = true → choice.alts = [code] → Coded dialect code.ops [inner] →
    Coded dialect ops row →
      Coded dialect (.choice choice :: ops) (.suffixed .positiveClosure greedy inner extent :: row)

section Coded

variable {dialect : Dialect} {ops ops' : List Operation} {e : Element} {row row' front : List Element}
  {entry : Int} {w : List Int}

theorem Coded.append (h : dialect.Coded ops row) (h' : dialect.Coded ops' row') :
    dialect.Coded (ops ++ ops') (row ++ row') := by
  induction h with
  | done => exact h'
  | opens hopened _ ih =>
      rw [List.append_assoc] at ih
      exact .opens hopened ih
  | reads hop he hreads _ ih => exact .reads hop he hreads ih
  | invoke _ ih => exact .invoke ih
  | action _ ih => exact .action ih
  | predicate hnone _ ih => exact .predicate hnone ih
  | precedence hsome _ ih => exact .precedence hsome ih
  | block hkind hmany hlength halts _ _ ih => exact .block hkind hmany hlength halts ih
  | optional hblock hstar hplus hlength halts _ _ ih =>
      exact .optional hblock hstar hplus hlength halts ih
  | star hkind halts hbody _ _ ih => exact .star hkind halts hbody ih
  | plus hkind halts hbody _ _ ih => exact .plus hkind halts hbody ih

theorem opened?_of_matches {n : Int} (h : dialect.Matches e n) : e.opened? = none := by
  cases h <;> rfl

theorem eq_ruleRef_of_calls? (hkind : dialect.kind = .parser) {call : String × Int}
    (h : calls? dialect.kind e = some call) :
    ∃ r, e = .ruleRef r ∧ (r.name, (precedenceIn? r.options).getD 0) = call := by
  rw [hkind] at h
  cases e with
  | ruleRef r => exact ⟨r, rfl, Option.some.inj h⟩
  | _ => cases h

/-- What stands in place of an element derives what the element derives. -/
theorem Derives.of_opened (hopened : e.opened? = some front)
    (h : dialect.Derives entry (front ++ row) w) : dialect.Derives entry (e :: row) w := by
  unfold Element.opened? at hopened
  split at hopened
  · obtain rfl := Option.some.inj hopened
    exact .empty (.epsilon _) h
  · obtain rfl := Option.some.inj hopened
    exact .empty (.command ..) h
  · obtain rfl := Option.some.inj hopened
    exact .labeled h
  · obtain rfl := Option.some.inj hopened
    exact .block (List.mem_singleton_self _) h
  · cases hopened

/-- What a suffix chooses derives what stands under the suffix. -/
theorem Derives.of_openings (hfront : front ∈ e.openings)
    (h : dialect.Derives entry (front ++ row) w) : dialect.Derives entry (e :: row) w := by
  unfold Element.openings at hfront
  split at hfront
  · obtain ⟨alt, halt, rfl⟩ := List.mem_map.mp hfront
    exact .block halt h
  · obtain rfl := List.mem_singleton.mp hfront
    exact h

theorem Coded.derives_nil (h : dialect.Coded [] row) (entry : Int) : dialect.Derives entry row [] := by
  generalize hops : ([] : List Operation) = ops at h
  induction h with
  | done => exact .done entry
  | opens hopened _ ih => exact .of_opened hopened (ih hops)
  | _ => cases hops

/-- An element in whose place others stand has no code of its own. -/
theorem Coded.opened (h : dialect.Coded ops (e :: row)) (hopened : e.opened? = some front) :
    dialect.Coded ops (front ++ row) := by
  cases h with
  | opens hopened' hrest =>
      obtain rfl := Option.some.inj (hopened.symm.trans hopened')
      exact hrest
  | reads _ he => rw [Element.opened?_of_isSymbol he] at hopened; cases hopened
  | block _ hmany => rw [Element.opened?_of_many hmany] at hopened; cases hopened
  | _ => cases hopened

/-- The first step belongs to an element that has code of its own. -/
theorem Coded.first {op : Operation} (h : dialect.Coded (op :: ops) row) :
    ∃ e rest, e.opened? = none ∧ dialect.Coded (op :: ops) (e :: rest) ∧
      ∀ entry w, dialect.Derives entry (e :: rest) w → dialect.Derives entry row w := by
  generalize hops : op :: ops = whole at h
  induction h with
  | done => cases hops
  | opens hopened _ ih =>
      obtain ⟨e, rest, hnone, hcoded, hderives⟩ := ih hops
      exact ⟨e, rest, hnone, hcoded, fun entry w h => .of_opened hopened (hderives entry w h)⟩
  | reads hop he hreads hrest _ =>
      exact ⟨_, _, Element.opened?_of_isSymbol he, .reads hop he hreads hrest, fun _ _ h => h⟩
  | invoke hrest _ => exact ⟨_, _, rfl, .invoke hrest, fun _ _ h => h⟩
  | action hrest _ => exact ⟨_, _, rfl, .action hrest, fun _ _ h => h⟩
  | predicate hnone hrest _ => exact ⟨_, _, rfl, .predicate hnone hrest, fun _ _ h => h⟩
  | precedence hsome hrest _ => exact ⟨_, _, rfl, .precedence hsome hrest, fun _ _ h => h⟩
  | block hkind hmany hlength halts hrest _ _ =>
      exact ⟨_, _, Element.opened?_of_many hmany, .block hkind hmany hlength halts hrest,
        fun _ _ h => h⟩
  | optional hblock hstar hplus hlength halts hrest _ _ =>
      exact ⟨_, _, rfl, .optional hblock hstar hplus hlength halts hrest, fun _ _ h => h⟩
  | star hkind halts hbody hrest _ _ =>
      exact ⟨_, _, rfl, .star hkind halts hbody hrest, fun _ _ h => h⟩
  | plus hkind halts hbody hrest _ _ =>
      exact ⟨_, _, rfl, .plus hkind halts hbody hrest, fun _ _ h => h⟩

/-- The code of a block leads into the code of each of its alternatives. -/
theorem Coded.enter {alts : List Alt} {options : Options} {extent : Extent} {alt : Alt}
    (h : dialect.Coded ops (.block alts options extent :: row)) (halt : alt ∈ alts) :
    ∃ inside, dialect.Coded inside (alt.elements ++ row) ∧
      ∀ {model : ParserModel} {most : Int} {input : List Int} {p : Int} {i j : Nat}
        {trace : List Trace}, model.Runs most .free input p inside i j trace →
          model.Runs most .free input p ops i j trace := by
  cases h with
  | opens hopened hinside =>
      obtain ⟨only, rfl, rfl⟩ := Element.eq_singleton_of_opened? hopened
      obtain rfl := List.mem_singleton.mp halt
      exact ⟨ops, hinside, id⟩
  | reads _ hsymbol => cases hsymbol
  | @block choice _ _ _ ops _ hkind _ hlength halts hrest =>
      obtain ⟨k, hk⟩ := List.mem_iff_getElem?.mp halt
      have hlt : k < choice.alts.length := hlength ▸ (List.getElem?_eq_some_iff.mp hk).1
      have hcode := List.getElem?_eq_getElem hlt
      refine ⟨_, (halts k _ alt hcode hk).append hrest, fun hruns => ?_⟩
      refine .enter (ChoiceKind.isPlus_of_isBlock hkind) trivial hcode ?_
      rw [Choice.behind, ChoiceKind.isStar_of_isBlock hkind]
      exact hruns

/-- What a suffix chooses from is coded as if the suffix were not there: a run through that code goes
through one of the alternatives. A block has a choice of its own there, which the suffix takes over. -/
theorem Coded.choose {alts : List AltCode} {inner : Element}
    (hlength : alts.length = inner.openings.length)
    (halts : ∀ (k : Nat) (code : AltCode) (front : List Element), alts[k]? = some code →
      inner.openings[k]? = some front → dialect.Coded code.ops front)
    (hrest : dialect.Coded ops row) :
    ∃ inside, dialect.Coded inside (inner :: row) ∧
      ∀ {model : ParserModel} {most : Int} {input : List Int} {p : Int} {i j : Nat}
        {trace : List Trace}, model.Runs most .free input p inside i j trace →
          ∃ (k : Nat) (code : AltCode), alts[k]? = some code ∧
            model.Runs most .free input p (code.ops ++ ops) i j trace := by
  -- a single alternative is coded in place
  have hone : ∀ front, inner.openings = [front] → ∃ code, alts = [code] ∧
      dialect.Coded code.ops front := by
    intro front hfront
    rw [hfront] at hlength halts
    obtain ⟨code, rfl⟩ := List.length_eq_one_iff.mp hlength
    exact ⟨code, rfl, halts 0 code front rfl rfl⟩
  by_cases hblock : ∃ as options extent, inner = .block as options extent
  · obtain ⟨as, options, extent, rfl⟩ := hblock
    by_cases hmany : as.length = 1
    · obtain ⟨alt, rfl⟩ := List.length_eq_one_iff.mp hmany
      obtain ⟨code, rfl, hcode⟩ := hone alt.elements rfl
      exact ⟨_, .opens rfl (hcode.append hrest), fun hruns => ⟨0, code, rfl, hruns⟩⟩
    · rw [Element.openings, List.length_map] at hlength
      refine ⟨.choice ⟨.altBlock, 0, alts, []⟩ :: ops, .block rfl hmany hlength ?_ hrest,
        fun hruns => ?_⟩
      · intro k code alt hcode halt
        refine halts k code alt.elements hcode ?_
        rw [Element.openings, List.getElem?_map, halt]
        rfl
      · cases hruns with
        | enter _ _ hcode hruns => exact ⟨_, _, hcode, hruns⟩
        | pass _ hnone => cases hnone
        | once hplus => cases hplus
  · have hno : ∀ as options extent, inner ≠ .block as options extent :=
      fun as options extent h => hblock ⟨as, options, extent, h⟩
    obtain ⟨code, rfl, hcode⟩ := hone _ (Element.openings_of_ne hno)
    exact ⟨_, hcode.append hrest, fun hruns => ⟨0, code, rfl, hruns⟩⟩

end Coded

/-- The functions of a model are the code of the rules that names stand for. A rule passes a
predicate that demands no less than the precedence that the rule was entered with. -/
structure CodedBy (dialect : Dialect) (model : ParserModel) : Prop where
  kind : dialect.kind = .parser
  passes : ∀ entry demanded, dialect.passes entry demanded ↔ entry ≤ demanded
  function : ∀ name definition, dialect.Defines name definition →
    ∃ function, model.function? name = some function ∧
      dialect.Coded function.body [.block definition.alts .none definition.block.extent]
  defined : ∀ name function, model.function? name = some function →
    ∃ definition, dialect.Defines name definition

section Runs

variable {dialect : Dialect} {model : ParserModel} {policy : Policy} {input : List Int} {p : Int}
  {ops : List Operation} {row : List Element} {i j k : Nat} {trace : List Trace} {w : List Int}

theorem extract_self (input : List Int) (i : Nat) : input.extract i i = [] := by
  simp [List.extract]

theorem extract_cons (hlt : i < j) (hj : j ≤ input.length) :
    input.extract i j = tokenAt input i :: input.extract (i + 1) j := by
  have hi : i < input.length := Nat.lt_of_lt_of_le hlt hj
  obtain ⟨n, hn⟩ : ∃ n, j - i = n + 1 := ⟨j - (i + 1), by omega⟩
  have hn' : j - (i + 1) = n := by omega
  unfold List.extract tokenAt
  rw [hn, hn', List.drop_eq_getElem_cons hi, List.take_succ_cons, List.getElem?_eq_getElem hi]
  rfl

theorem extract_append (hik : i ≤ k) (hkj : k ≤ j) :
    input.extract i j = input.extract i k ++ input.extract k j := by
  obtain ⟨n, rfl⟩ := Nat.exists_eq_add_of_le hik
  obtain ⟨m, rfl⟩ := Nat.exists_eq_add_of_le hkj
  unfold List.extract
  rw [Nat.add_assoc, Nat.add_sub_cancel_left, Nat.add_sub_cancel_left, ← Nat.add_assoc,
    Nat.add_sub_cancel_left, List.take_add, List.drop_drop]

/-- Whether every row that steps are the code of derives what stands between two places. -/
def RowsDerive (dialect : Dialect) (input : List Int) (p : Int) (ops : List Operation) (i j : Nat) :
    Prop :=
  ∀ row : List Element, dialect.Coded ops row → j ≤ input.length →
    dialect.Derives p row (input.extract i j)

namespace RowsDerive

variable {op : Operation} {choice : Choice}

/-- Only the element that the first step belongs to need be looked at. -/
theorem of_first (h : ∀ {e : Element} {row : List Element}, e.opened? = none →
    dialect.Coded (op :: ops) (e :: row) → j ≤ input.length →
      dialect.Derives p (e :: row) (input.extract i j)) :
    dialect.RowsDerive input p (op :: ops) i j := by
  intro row hcoded hj
  obtain ⟨e, rest, hnone, hcoded, hderives⟩ := hcoded.first
  exact hderives p _ (h hnone hcoded hj)

/-- A step that reads a token belongs to an element that matches it. -/
theorem reads (hop : op.isReader = true) (hreads : op.Reads dialect.greatest (tokenAt input i))
    (hle : i + 1 ≤ j) (ih : dialect.RowsDerive input p ops (i + 1) j) :
    dialect.RowsDerive input p (op :: ops) i j := by
  refine of_first fun {e row} hnone hcoded hj => ?_
  rw [extract_cons hle hj]
  cases hcoded with
  | opens hopened => rw [hnone] at hopened; cases hopened
  | reads _ _ hmatches hrest => exact .symbol ((hmatches _).mp hreads) (ih _ hrest hj)
  | _ => cases hop

/-- A step that calls a function belongs to a reference to its rule. -/
theorem invoke {name : String} {precedence : Option Int} {label : Option String}
    {function : RuleFunction} (h : dialect.CodedBy model) (hf : model.function? name = some function)
    (hik : i ≤ k) (hkj : k ≤ j)
    (ihbody : dialect.RowsDerive input (precedence.getD 0) function.body i k)
    (ih : dialect.RowsDerive input p ops k j) :
    dialect.RowsDerive input p (.invoke name precedence label :: ops) i j := by
  refine of_first fun {e row} hnone hcoded hj => ?_
  rw [extract_append hik hkj]
  cases hcoded with
  | opens hopened => rw [hnone] at hopened; cases hopened
  | reads hop => cases hop
  | invoke hcodedrest =>
      obtain ⟨definition, hdefines⟩ := h.defined _ _ hf
      obtain ⟨function, hf', hcodedbody⟩ := h.function _ _ hdefines
      obtain rfl := Option.some.inj (hf.symm.trans hf')
      obtain ⟨alt, halt, hbody⟩ := derives_block.mp (ihbody _ hcodedbody (Nat.le_trans hkj hj))
      rw [List.append_nil] at hbody
      exact .call rfl hdefines halt hbody (ih _ hcodedrest hj)

theorem action {text : String} (ih : dialect.RowsDerive input p ops i j) :
    dialect.RowsDerive input p (.action text :: ops) i j := by
  refine of_first fun {e row} hnone hcoded hj => ?_
  cases hcoded with
  | opens hopened => rw [hnone] at hopened; cases hopened
  | reads hop => cases hop
  | action hcodedrest => exact .empty (.action _) (ih _ hcodedrest hj)

theorem predicate {text : String} (ih : dialect.RowsDerive input p ops i j) :
    dialect.RowsDerive input p (.predicate text :: ops) i j := by
  refine of_first fun {e row} hnone hcoded hj => ?_
  cases hcoded with
  | opens hopened => rw [hnone] at hopened; cases hopened
  | reads hop => cases hop
  | predicate hplain hcodedrest => exact .empty (.predicate hplain) (ih _ hcodedrest hj)

theorem precedence {demanded : Int} (hpasses : dialect.passes p demanded)
    (ih : dialect.RowsDerive input p ops i j) :
    dialect.RowsDerive input p (.precedence demanded :: ops) i j := by
  refine of_first fun {e row} hnone hcoded hj => ?_
  cases hcoded with
  | opens hopened => rw [hnone] at hopened; cases hopened
  | reads hop => cases hop
  | precedence hdemands hcodedrest => exact .precedence hdemands hpasses (ih _ hcodedrest hj)

/-- A choice is entered at an alternative that is coded for, and a loop comes back to itself. -/
theorem enter {code : AltCode} (hplus : choice.kind.isPlus = false)
    (halt : choice.alts[k]? = some code)
    (ih : dialect.RowsDerive input p (code.ops ++ (choice.behind ++ ops)) i j) :
    dialect.RowsDerive input p (.choice choice :: ops) i j := by
  refine of_first fun {e row} hnone hcoded hj => ?_
  have hlt : k < choice.alts.length := (List.getElem?_eq_some_iff.mp halt).1
  cases hcoded with
  | opens hopened => rw [hnone] at hopened; cases hopened
  | reads hop => cases hop
  | @block _ alts _ _ _ _ hblock _ hlength halts hcodedrest =>
      rw [Choice.behind, ChoiceKind.isStar_of_isBlock hblock] at ih
      have hk := List.getElem?_eq_getElem (hlength ▸ hlt : k < alts.length)
      exact .block (List.getElem_mem _) (ih _ ((halts k code _ halt hk).append hcodedrest) hj)
  | @optional _ _ inner _ _ _ _ hstar _ hlength halts hcodedrest =>
      rw [Choice.behind, hstar] at ih
      have hk := List.getElem?_eq_getElem (hlength ▸ hlt : k < inner.openings.length)
      exact .once (.of_openings (List.getElem_mem _)
        (ih _ ((halts k code _ halt hk).append hcodedrest) hj))
  | star hstar halts hbody hcodedrest =>
      obtain rfl := List.mem_singleton.mp (halts ▸ List.mem_of_getElem? halt)
      rw [Choice.behind, hstar] at ih
      exact .again nofun (ih _ (hbody.append (.star hstar halts hbody hcodedrest)) hj)
  | plus hplus' => rw [hplus'] at hplus; cases hplus

/-- A choice that may be passed is that of a suffix that may be skipped. -/
theorem pass (hplus : choice.kind.isPlus = false) (hblock : choice.kind.isBlock = false)
    (ih : dialect.RowsDerive input p ops i j) :
    dialect.RowsDerive input p (.choice choice :: ops) i j := by
  refine of_first fun {e row} hnone hcoded hj => ?_
  cases hcoded with
  | opens hopened => rw [hnone] at hopened; cases hopened
  | reads hop => cases hop
  | block hblock' => rw [hblock'] at hblock; cases hblock
  | optional _ _ _ _ _ hcodedrest => exact .skip nofun (ih _ hcodedrest hj)
  | star _ _ _ hcodedrest => exact .skip nofun (ih _ hcodedrest hj)
  | plus hplus' => rw [hplus'] at hplus; cases hplus

/-- A loop that must come once goes on as one that may end. -/
theorem once (hplus : choice.kind.isPlus = true)
    (ih : dialect.RowsDerive input p (choice.body ++ .choice choice.again :: ops) i j) :
    dialect.RowsDerive input p (.choice choice :: ops) i j := by
  refine of_first fun {e row} hnone hcoded hj => ?_
  cases hcoded with
  | opens hopened => rw [hnone] at hopened; cases hopened
  | reads hop => cases hop
  | block hblock => rw [ChoiceKind.isPlus_of_isBlock hblock] at hplus; cases hplus
  | optional _ _ hplus' => rw [hplus] at hplus'; cases hplus'
  | star hstar => rw [ChoiceKind.isStar_of_isPlus hplus] at hstar; cases hstar
  | @plus _ code greedy inner extent _ _ _ halts hbody hcodedrest =>
      rw [Choice.body, halts, List.flatMap_singleton] at ih
      have hagain : choice.again.kind.isStar = true := ChoiceKind.isStar_again hplus
      have hrow := ih _ (hbody.append
        (@Coded.star _ _ _ greedy _ extent _ _ hagain halts hbody hcodedrest)) hj
      exact (Derives.closure hrow (show _ = [inner] ++ _ from rfl)).elim .once (.again nofun)

end RowsDerive

/-- A run through the code of a row reads what the row derives. -/
theorem CodedBy.derives (h : dialect.CodedBy model)
    (hruns : model.Runs dialect.greatest policy input p ops i j trace) :
    dialect.RowsDerive input p ops i j := by
  induction hruns with
  | done =>
      intro row hcoded hj
      rw [extract_self]
      exact hcoded.derives_nil _
  | token ht hrest ih => exact .reads rfl ht hrest.le ih
  | set ht hrest ih => exact .reads rfl ht hrest.le ih
  | wildcard ht hrest ih => exact .reads rfl ht hrest.le ih
  | invoke hf hbody hrest ihbody ih => exact .invoke h hf hbody.le hrest.le ihbody ih
  | action _ ih => exact .action ih
  | predicate _ ih => exact .predicate ih
  | precedence hp _ ih => exact .precedence ((h.passes _ _).mpr hp) ih
  | enter hplus _ halt _ ih => exact .enter hplus halt ih
  | pass hplus hblock _ _ ih => exact .pass hplus hblock ih
  | once hplus _ ih => exact .once hplus ih

theorem drop_of_append {u v : List Int} (h : input.drop i = u ++ v) :
    input.drop (i + u.length) = v := by
  rw [← List.drop_drop, h, List.drop_left]

theorem tokenAt_of_drop {n : Int} {v : List Int} (h : input.drop i = n :: v) :
    tokenAt input i = n := by
  have hat : (input.drop i)[0]? = some n := by rw [h]; rfl
  rw [List.getElem?_drop, Nat.add_zero] at hat
  unfold tokenAt
  rw [hat]
  rfl

theorem runs_of_reads {op : Operation} {most : Int} (hop : op.isReader = true)
    (hreads : op.Reads most (tokenAt input i)) (h : model.Runs most policy input p ops (i + 1) j trace) :
    ∃ trace, model.Runs most policy input p (op :: ops) i j trace := by
  cases op with
  | matchToken => exact ⟨_, .token hreads h⟩
  | matchSet => exact ⟨_, .set hreads h⟩
  | wildcard => exact ⟨_, .wildcard hreads h⟩
  | _ => cases hop

/-- A loop may come again. -/
theorem runs_again {choice : Choice} {code : AltCode} {most : Int} (hstar : choice.kind.isStar = true)
    (halts : choice.alts = [code])
    (h : model.Runs most .free input p (code.ops ++ .choice choice :: ops) i j trace) :
    model.Runs most .free input p (.choice choice :: ops) i j trace := by
  refine .enter (ChoiceKind.isPlus_of_isStar hstar) trivial
    (show choice.alts[0]? = some code by rw [halts]; rfl) ?_
  rw [Choice.behind, hstar]
  exact h

/-- A loop may end. -/
theorem runs_last {choice : Choice} {most : Int} {body : List Operation}
    (hstar : choice.kind.isStar = true)
    (h : model.Runs most .free input p (body ++ ops) i j trace) :
    ∃ trace, model.Runs most .free input p (body ++ .choice choice :: ops) i j trace := by
  obtain ⟨k, front, back, hbody, hrest, -⟩ := h.split rfl
  exact ⟨_, hbody.append (.pass (ChoiceKind.isPlus_of_isStar hstar)
    (ChoiceKind.isBlock_of_isStar hstar) trivial hrest)⟩

/-- A loop that must come once leads through its body to the loop that may end. -/
theorem runs_once {choice : Choice} {code : AltCode} {most : Int} (halts : choice.alts = [code])
    (hplus : choice.kind.isPlus = true) :
    model.Runs most policy input p (.choice choice :: ops) i j trace ↔
      model.Runs most policy input p (code.ops ++ .choice choice.again :: ops) i j trace := by
  have hbody : choice.body = code.ops := by
    rw [Choice.body, halts, List.flatMap_singleton]
  rw [← hbody]
  constructor
  · intro h
    cases h with
    | enter hno => rw [hplus] at hno; cases hno
    | pass hno => rw [hplus] at hno; cases hno
    | once _ h => exact h
  · exact .once hplus

/-- Whether the code of a row has a run that reads a word, wherever the word stands in the input. -/
def CodeReads (dialect : Dialect) (model : ParserModel) (input : List Int) (p : Int)
    (row : List Element) (w : List Int) : Prop :=
  ∀ ops : List Operation, dialect.Coded ops row → ∀ {i : Nat} {rest : List Int},
    input.drop i = w ++ rest →
      ∃ trace, model.Runs dialect.greatest .free input p ops i (i + w.length) trace

namespace CodeReads

variable {e : Element} {u : List Int}

theorem done : dialect.CodeReads model input p [] [] := by
  intro ops hcoded i rest _
  cases hcoded with
  | done => exact ⟨[], .done⟩

theorem symbol {n : Int} (hmatches : dialect.Matches e n)
    (ih : dialect.CodeReads model input p row w) : dialect.CodeReads model input p (e :: row) (n :: w) := by
  intro ops hcoded i rest hinput
  cases hcoded with
  | opens hopened _ =>
      rw [opened?_of_matches hmatches] at hopened
      cases hopened
  | reads hop _ hreads hrest =>
      obtain ⟨trace, hruns⟩ := ih _ hrest (drop_of_append (u := [_]) hinput)
      rw [← tokenAt_of_drop hinput] at hmatches
      rw [List.length_cons, Nat.add_comm _ 1, ← Nat.add_assoc]
      exact runs_of_reads hop ((hreads _).mpr hmatches) hruns
  | _ => cases hmatches

theorem call {name : String} {precedence : Int} {definition : RuleDef} {alt : Alt}
    (h : dialect.CodedBy model) (hcalls : calls? dialect.kind e = some (name, precedence))
    (hdefines : dialect.Defines name definition) (halt : alt ∈ definition.alts)
    (ihbody : dialect.CodeReads model input precedence alt.elements u)
    (ih : dialect.CodeReads model input p row w) :
    dialect.CodeReads model input p (e :: row) (u ++ w) := by
  intro ops hcoded i rest hinput
  obtain ⟨r, rfl, hcall⟩ := eq_ruleRef_of_calls? h.kind hcalls
  obtain ⟨rfl, rfl⟩ := Prod.mk.inj hcall
  rw [List.append_assoc] at hinput
  rw [List.length_append, ← Nat.add_assoc]
  cases hcoded with
  | opens hopened => cases hopened
  | reads _ he => cases he
  | invoke hrest =>
      obtain ⟨function, hf, hbody⟩ := h.function _ _ hdefines
      obtain ⟨inside, hinside, hlead⟩ := hbody.enter halt
      rw [List.append_nil] at hinside
      obtain ⟨children, hchildren⟩ := ihbody _ hinside hinput
      obtain ⟨trace, hruns⟩ := ih _ hrest (drop_of_append hinput)
      exact ⟨_, .invoke hf (hlead hchildren) hruns⟩

theorem empty (hempty : Empty e) (ih : dialect.CodeReads model input p row w) :
    dialect.CodeReads model input p (e :: row) w := by
  intro ops hcoded i rest hinput
  cases hempty with
  | action =>
      cases hcoded with
      | opens hopened => cases hopened
      | reads _ he => cases he
      | action hrest =>
          obtain ⟨trace, hruns⟩ := ih _ hrest hinput
          exact ⟨_, .action hruns⟩
  | predicate hplain =>
      cases hcoded with
      | opens hopened => cases hopened
      | reads _ he => cases he
      | predicate _ hrest =>
          obtain ⟨trace, hruns⟩ := ih _ hrest hinput
          exact ⟨_, .predicate hruns⟩
      | precedence hsome => rw [hplain] at hsome; cases hsome
  | command => exact ih _ (hcoded.opened rfl) hinput
  | epsilon => exact ih _ (hcoded.opened rfl) hinput

theorem precedence {demanded : Int} {code : Snippet}
    (hsome : precedenceIn? code.options = some demanded) (hle : p ≤ demanded)
    (ih : dialect.CodeReads model input p row w) :
    dialect.CodeReads model input p (.predicate code :: row) w := by
  intro ops hcoded i rest hinput
  cases hcoded with
  | opens hopened => cases hopened
  | reads _ he => cases he
  | predicate hplain => rw [hsome] at hplain; cases hplain
  | precedence hsome' hrest =>
      obtain rfl := Option.some.inj (hsome.symm.trans hsome')
      obtain ⟨trace, hruns⟩ := ih _ hrest hinput
      exact ⟨_, .precedence hle hruns⟩

theorem labeled {isList : Bool} {label : String} {labelToken : Nat} {extent : Extent}
    (ih : dialect.CodeReads model input p (e :: row) w) :
    dialect.CodeReads model input p (.labeled isList label labelToken e extent :: row) w :=
  fun _ hcoded => ih _ (hcoded.opened rfl)

theorem block {alts : List Alt} {options : Options} {extent : Extent} {alt : Alt} (halt : alt ∈ alts)
    (ih : dialect.CodeReads model input p (alt.elements ++ row) w) :
    dialect.CodeReads model input p (.block alts options extent :: row) w := by
  intro ops hcoded i rest hinput
  obtain ⟨inside, hinside, hlead⟩ := hcoded.enter halt
  obtain ⟨trace, hruns⟩ := ih _ hinside hinput
  exact ⟨trace, hlead hruns⟩

variable {suffix : Suffix} {greedy : Bool} {extent : Extent}

/-- The choice of a suffix that may be skipped is passed. -/
theorem skip (hsuffix : suffix ≠ .positiveClosure) (ih : dialect.CodeReads model input p row w) :
    dialect.CodeReads model input p (.suffixed suffix greedy e extent :: row) w := by
  intro ops hcoded i rest hinput
  cases hcoded with
  | opens hopened => cases hopened
  | reads _ he => cases he
  | optional hblock _ hplus _ _ hrest =>
      obtain ⟨trace, hruns⟩ := ih _ hrest hinput
      exact ⟨trace, .pass hplus hblock trivial hruns⟩
  | star hstar _ _ hrest =>
      obtain ⟨trace, hruns⟩ := ih _ hrest hinput
      exact ⟨trace, .pass (ChoiceKind.isPlus_of_isStar hstar) (ChoiceKind.isBlock_of_isStar hstar)
        trivial hruns⟩
  | plus => exact absurd rfl hsuffix

/-- The choice of a suffix is entered once, and a loop ends behind it. -/
theorem once (ih : dialect.CodeReads model input p (e :: row) w) :
    dialect.CodeReads model input p (.suffixed suffix greedy e extent :: row) w := by
  intro ops hcoded i rest hinput
  cases hcoded with
  | opens hopened => cases hopened
  | reads _ he => cases he
  | optional hblock hstar hplus hlength halts hrest =>
      obtain ⟨inside, hinside, hchoose⟩ := Coded.choose hlength halts hrest
      obtain ⟨trace, hruns⟩ := ih _ hinside hinput
      obtain ⟨k, code, hcode, hruns⟩ := hchoose hruns
      refine ⟨trace, .enter hplus trivial hcode ?_⟩
      rw [Choice.behind, hstar]
      exact hruns
  | star hstar halts hbody hrest =>
      obtain ⟨trace, hruns⟩ := ih _ (hbody.append hrest) hinput
      obtain ⟨trace, hruns⟩ := runs_last hstar hruns
      exact ⟨trace, runs_again hstar halts hruns⟩
  | @plus choice _ _ _ _ _ _ hplus halts hbody hrest =>
      obtain ⟨trace, hruns⟩ := ih _ (hbody.append hrest) hinput
      have hstar : choice.again.kind.isStar = true := ChoiceKind.isStar_again hplus
      obtain ⟨trace, hruns⟩ := runs_last hstar hruns
      exact ⟨trace, (runs_once halts hplus).mpr hruns⟩

/-- A loop is entered and comes again. -/
theorem again (hsuffix : suffix ≠ .optional)
    (ih : dialect.CodeReads model input p (e :: .suffixed suffix greedy e extent :: row) w) :
    dialect.CodeReads model input p (.suffixed suffix greedy e extent :: row) w := by
  intro ops hcoded i rest hinput
  have hagain := hcoded
  cases hcoded with
  | opens hopened => cases hopened
  | reads _ he => cases he
  | optional => exact absurd rfl hsuffix
  | star hstar halts hbody _ =>
      obtain ⟨trace, hruns⟩ := ih _ (hbody.append hagain) hinput
      exact ⟨trace, runs_again hstar halts hruns⟩
  | @plus choice _ _ _ _ _ _ hplus halts hbody _ =>
      have hstar : choice.again.kind.isStar = true := ChoiceKind.isStar_again hplus
      obtain ⟨trace, hruns⟩ := ih _ (hbody.append hagain) hinput
      -- the second round is one of the loop that may end
      obtain ⟨k, front, back, hfirst, hmore, -⟩ := hruns.split rfl
      exact ⟨_, (runs_once halts hplus).mpr
        (hfirst.append (runs_again hstar halts ((runs_once halts hplus).mp hmore)))⟩

end CodeReads

/-- What a row derives is read by a run through the code of the row. -/
theorem CodedBy.runs (h : dialect.CodedBy model) (hderives : dialect.Derives p row w) :
    dialect.CodeReads model input p row w := by
  induction hderives with
  | done => exact .done
  | symbol hmatches _ ih => exact .symbol hmatches ih
  | word hkind => rw [h.kind] at hkind; cases hkind
  | call hcalls hdefines halt _ _ ihbody ih => exact .call h hcalls hdefines halt ihbody ih
  | empty hempty _ ih => exact .empty hempty ih
  | precedence hsome hpasses _ ih =>
      exact .precedence hsome ((h.passes _ _).mp hpasses) ih
  | labeled _ ih => exact .labeled ih
  | block halt _ ih => exact .block halt ih
  | skip hsuffix _ ih => exact .skip hsuffix ih
  | once _ ih => exact .once ih
  | again hsuffix _ ih => exact .again hsuffix ih

/-- The runs through the code of a row read what the row derives. -/
theorem CodedBy.runs_iff (h : dialect.CodedBy model) (hcoded : dialect.Coded ops row)
    (input : List Int) :
    (∃ trace, model.Runs dialect.greatest .free input p ops 0 input.length trace) ↔
      dialect.Derives p row input := by
  constructor
  · rintro ⟨trace, hruns⟩
    have hderives := h.derives hruns _ hcoded (Nat.le_refl _)
    rw [List.extract, List.drop_zero, Nat.sub_zero, List.take_length] at hderives
    exact hderives
  · intro hderives
    obtain ⟨trace, hruns⟩ :=
      h.runs hderives _ hcoded (show input.drop 0 = input ++ [] from (List.append_nil input).symm)
    rw [Nat.zero_add] at hruns
    exact ⟨trace, hruns⟩

end Runs

end Dialect

end GrammarCompiler
