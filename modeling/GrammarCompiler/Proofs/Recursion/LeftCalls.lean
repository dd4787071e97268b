import GrammarCompiler.Proofs.Network.Leftmost
import GrammarCompiler.Proofs.Recursion.Language

/-!
# The elimination of left recursion removes leading references only

What can be stepped over is the same before and after left recursion has been eliminated
(`Dialect.Eliminates.skips_iff`). Rules call each other on their left as they did before, but not any more
by the reference to itself that an alternative of a left-recursive rule begins with
(`Dialect.Eliminates.leftCalls_iff`). So a cycle that the network of the new grammar has is one that
the old grammar had without these references (`Grammar.eliminate_leftCalls`).

A loop stands behind a block that may be stepped over. Then rules are met in the loop that were not at
the beginning of an alternative before: but they were met behind the leading reference, which could
be stepped over for the same reason.
-/

namespace GrammarCompiler

/-- Operators are the alternatives that begin with their rule. -/
theorem RuleDef.HandsOver.beginsWith {rule : RuleDef} {num : Nat} {origin : Alt} {shape : AltShape}
    (h : rule.HandsOver num origin shape) : origin.beginsWith rule.name = shape.isOperator := by
  have hshape := h.shaped
  unfold Alt.shape at hshape
  split at hshape
  · cases hshape
  split at hshape
  next hbegins =>
    obtain rfl := Except.ok.inj hshape
    rw [Bool.not_eq_true'] at hbegins
    rw [hbegins]
    split <;> rfl
  next hbegins =>
    rw [Bool.not_eq_true, Bool.not_eq_false'] at hbegins
    rw [hbegins]
    repeat' split at hshape
    all_goals cases hshape <;> rfl

namespace Dialect

/-! ## References -/

/-- A call can be stepped over if the rule can or there is none. -/
theorem skips_of_callee? {dialect : Dialect} {e : Element} {name : String}
    (hcallee : dialect.callee? e = some name) :
    dialect.Skips e ↔ dialect.rule? name = none ∨ dialect.SkipsRule name := by
  constructor
  · intro h
    cases h with
    | missing hcallee' hnone =>
        obtain rfl := Option.some.inj (hcallee.symm.trans hcallee')
        exact .inl hnone
    | reference hcallee' hdefines halt hskips =>
        obtain rfl := Option.some.inj (hcallee.symm.trans hcallee')
        exact .inr ⟨_, hdefines, _, halt, hskips⟩
    | _ => cases hcallee
  · rintro (hnone | ⟨definition, hdefines, alt, halt, hskips⟩)
    · exact .missing hcallee hnone
    · exact .reference hcallee hdefines halt hskips

/-- A reference can be stepped over if the rule can or there is none. -/
theorem skips_of_refersTo {dialect : Dialect} {e : Element} {name : String}
    (h : e.refersTo name = true) :
    dialect.Skips e ↔ dialect.rule? name = none ∨ dialect.SkipsRule name := by
  obtain ⟨ref, href, hname⟩ := (Option.any_eq_true _ _).mp h
  obtain rfl : ref.name = name := by simpa using hname
  have hcall : dialect.Skips (.ruleRef ref) ↔ _ := skips_of_callee? rfl
  unfold Element.asRuleRef? at href
  split at href
  · obtain rfl := Option.some.inj href
    exact hcall
  · obtain rfl := Option.some.inj href
    refine Iff.trans ⟨fun hlabeled => ?_, .labeled⟩ hcall
    cases hlabeled with
    | labeled hinner => exact hinner
    | missing hcallee => cases hcallee
    | reference hcallee => cases hcallee
  · cases href

/-- What is met in a row hangs on what can be stepped over, not on the rules. -/
theorem Meets.transfer {dialect dialect' : Dialect} (hkind : dialect.kind = dialect'.kind)
    (hskips : ∀ e, dialect.Skips e → dialect'.Skips e) {row : List Element} {name : String}
    (h : dialect.Meets row name) : dialect'.Meets row name := by
  induction h with
  | call hcallee =>
      refine .call ?_
      unfold callee? at hcallee ⊢
      rw [← hkind, hcallee]
  | labeled _ ih => exact .labeled ih
  | block halt _ ih => exact .block halt ih
  | suffixed _ ih => exact .suffixed ih
  | behind hskip _ ih => exact .behind (hskips _ hskip) ih

/-- The rules that an alternative of a rule comes to, but not by the reference to the rule itself that it
begins with if the rule is listed. -/
def MeetsElsewhere (dialect : Dialect) (names : List String) (caller : String) (alt : Alt)
    (callee : String) : Prop :=
  if caller ∈ names ∧ alt.beginsWith caller = true then
    (∀ e ∈ alt.elements.head?, dialect.Skips e) ∧ dialect.Meets alt.elements.tail callee
  else dialect.Meets alt.elements callee

/-- A rule calls another one on its left, and not only by a reference to itself that an alternative of a
listed rule begins with. -/
def LeftCallsElsewhere (dialect : Dialect) (names : List String) (caller callee : String) : Prop :=
  (∃ rule, dialect.rule? callee = some rule) ∧ ∃ definition, dialect.Defines caller definition ∧
    ∃ alt ∈ definition.alts, dialect.MeetsElsewhere names caller alt callee

theorem not_meets_of_isIdle {dialect : Dialect} {front : List Element} (h : IsIdle front) {name : String} :
    ¬dialect.Meets front name := by
  induction front with
  | nil => nofun
  | cons e front ih =>
      obtain ⟨⟨code, rfl⟩, hfront⟩ := List.forall_mem_cons.mp h
      intro hmeets
      cases hmeets with
      | call hcallee => cases hcallee
      | behind _ hrest => exact ih hfront hrest

theorem not_meets_of_isGuard {dialect : Dialect} {front : List Element} (h : IsGuard front)
    {name : String} : ¬dialect.Meets front name := by
  obtain ⟨code, rfl, -⟩ := h
  intro hmeets
  cases hmeets with
  | call hcallee => cases hcallee
  | behind _ hrest => cases hrest

theorem skips_of_isSilent {dialect : Dialect} {e : Element} (h : e.isSilent = true) :
    dialect.Skips e := by
  cases e with
  | action code => exact .action code
  | predicate code => exact .predicate code
  | epsilon extent => exact .epsilon extent
  | _ => cases h

/-! ## Alternatives that are shown -/

section Shows

variable {dialect : Dialect} {written : RuleDef} {names : List String} {lead : List Element → Prop}
  {alt : Alt} {num : Nat}

/-- What stands for an alternative can be stepped over if what goes over from the alternative can be. -/
theorem skips_of_shows (h : written.Shows names lead alt num)
    (hlead : ∀ front, lead front → ∀ e ∈ front, e.isSilent = true) :
    (∀ e ∈ alt.elements, dialect.Skips e) ↔ ∀ e ∈ written.carried num, dialect.Skips e := by
  obtain ⟨front, row, helements, hfront, hrenders⟩ := h
  rw [helements]
  constructor
  · exact fun hall => skips_of_allBare (fun e he => hall e (List.mem_append_right _ he)) hrenders.bare
  · intro hcarried e he
    rcases List.mem_append.mp he with he | he
    · exact skips_of_isSilent (hlead front hfront e he)
    · exact skips_of_allBare hcarried hrenders.bare.symm e he

/-- What stands for an alternative comes to the rules that what goes over from the alternative does. -/
theorem meets_of_shows (h : written.Shows names lead alt num)
    (hlead : ∀ front, lead front → ∀ e ∈ front, e.isSilent = true)
    (hno : ∀ front, lead front → ∀ name, ¬dialect.Meets front name) {name : String} :
    dialect.Meets alt.elements name ↔ dialect.Meets (written.carried num) name := by
  obtain ⟨front, row, helements, hfront, hrenders⟩ := h
  rw [helements, meets_append]
  constructor
  · rintro (hmeets | ⟨-, hmeets⟩)
    · exact absurd hmeets (hno front hfront name)
    · exact meets_of_allBare hmeets hrenders.bare
  · exact fun hmeets => .inr ⟨fun e he => skips_of_isSilent (hlead front hfront e he),
      meets_of_allBare hmeets hrenders.bare.symm⟩

end Shows

/-! ## Before and after -/

section Eliminates

variable {before after : Dialect} {grammar : Grammar} {names : List String}
  (h : before.Eliminates after grammar names)

include h

theorem Eliminates.callee?_eq (e : Element) : after.callee? e = before.callee? e := by
  unfold callee?
  rw [h.kind, h.kind']

omit h in
/-- A rule whose references demand a precedence has the alternatives that it had, but for options. -/
theorem exists_of_mem_demandAny (names : List String) {written : RuleDef} {alt : Alt}
    (halt : alt ∈ (Grammar.demandAny names written).alts) :
    ∃ was ∈ written.alts, Element.allBare alt.elements = Element.allBare was.elements := by
  have hmap : (Grammar.demandAny names written).alts =
      (Alt.mapListOptions (demandingAny names) () written.alts).2 := rfl
  rw [hmap, Alt.mapListOptions_eq_map] at halt
  obtain ⟨was, hwas, rfl⟩ := List.mem_map.mp halt
  refine ⟨was, hwas, ?_⟩
  obtain ⟨elements, options, label, extent, info⟩ := was
  exact Element.allBare_mapOptions _ elements ()

omit h in
theorem exists_mem_demandAny (names : List String) {written : RuleDef} {was : Alt}
    (hwas : was ∈ written.alts) : ∃ alt ∈ (Grammar.demandAny names written).alts,
      Element.allBare alt.elements = Element.allBare was.elements := by
  have hmap : (Grammar.demandAny names written).alts =
      (Alt.mapListOptions (demandingAny names) () written.alts).2 := rfl
  rw [hmap, Alt.mapListOptions_eq_map]
  refine ⟨_, List.mem_map_of_mem hwas, ?_⟩
  obtain ⟨elements, options, label, extent, info⟩ := was
  exact Element.allBare_mapOptions _ elements ()

omit h in
/-- A loop can be stepped over if one of its primary alternatives can be. -/
theorem skips_loop {dialect : Dialect} {rule : RuleDef} (hloop : rule.IsLoop) :
    (∃ alt ∈ rule.alts, ∀ e ∈ alt.elements, dialect.Skips e) ↔
      ∃ alt ∈ rule.primaryBlock, ∀ e ∈ alt.elements, dialect.Skips e := by
  obtain ⟨options, extent, loop, options', label, outer, info, halts, hloop⟩ := hloop.exists_blocks
  rw [halts]
  constructor
  · rintro ⟨alt, halt, hskips⟩
    obtain rfl := List.mem_singleton.mp halt
    exact skips_block.mp (hskips _ (List.mem_cons_self ..))
  · intro hprimary
    refine ⟨_, List.mem_singleton_self _, List.forall_mem_cons.mpr ⟨skips_block.mpr hprimary, ?_⟩⟩
    rcases hloop with ⟨rfl, -⟩ | ⟨greedy, options'', inner, outer', rfl⟩
    · nofun
    · exact fun e he => List.mem_singleton.mp he ▸ .skipped nofun

omit h in
/-- A loop comes to the rules that its primary alternatives do, and its operators if one of the primary
alternatives can be stepped over. -/
theorem meets_loop {dialect : Dialect} {rule : RuleDef} (hloop : rule.IsLoop) {name : String} :
    (∃ alt ∈ rule.alts, dialect.Meets alt.elements name) ↔
      (∃ alt ∈ rule.primaryBlock, dialect.Meets alt.elements name) ∨
        (∃ alt ∈ rule.primaryBlock, ∀ e ∈ alt.elements, dialect.Skips e) ∧
          ∃ alt ∈ rule.operatorBlock, dialect.Meets alt.elements name := by
  obtain ⟨options, extent, loop, options', label, outer, info, halts, hloop⟩ := hloop.exists_blocks
  have hblocks : dialect.Meets loop name ↔ ∃ alt ∈ rule.operatorBlock, dialect.Meets alt.elements name := by
    rcases hloop with ⟨rfl, hnone⟩ | ⟨greedy, options'', inner, outer', rfl⟩
    · rw [hnone]
      exact ⟨nofun, nofun⟩
    · rw [← @meets_block dialect rule.operatorBlock options'' inner name]
      refine ⟨fun hmeets => ?_, .suffixed⟩
      cases hmeets with
      | call hcallee => cases hcallee
      | suffixed hinner => exact hinner
      | behind _ hrest => cases hrest
  have hfront := @meets_block dialect rule.primaryBlock options extent name
  have hover := @skips_block dialect rule.primaryBlock options extent
  rw [halts, ← hfront, ← hover, ← hblocks, ← List.forall_mem_singleton (p := dialect.Skips),
    ← meets_append]
  simp only [List.mem_singleton, exists_eq_left]
  exact Iff.rfl

/-! ## What can be stepped over -/

/-- A rule can be stepped over if an alternative of the new rule can be. -/
theorem Eliminates.skipsRule_of_next {name : String} {next : RuleDef}
    (hdefines : after.Defines name next) {alt : Alt} (halt : alt ∈ next.alts)
    (hskips : ∀ e ∈ alt.elements, before.Skips e) : before.SkipsRule name := by
  obtain ⟨written, hwritten, hbecomes⟩ := h.back name next hdefines
  refine ⟨written, hwritten, ?_⟩
  cases hbecomes with
  | kept hnot =>
      obtain ⟨was, hwas, hsame⟩ := exists_of_mem_demandAny names halt
      exact ⟨was, hwas, skips_of_allBare hskips hsame⟩
  | loop hmem hname hcommands hunrolls =>
      have hloop := (hunrolls.loop.mapOptions (demandingAny names)).1
      obtain ⟨alt, halt, hskips⟩ := (skips_loop hloop).mp ⟨alt, halt, hskips⟩
      obtain ⟨num, hnum, hshows⟩ :=
        hunrolls.shows_of_mem_primary hcommands (h.options name written hwritten) names halt
      obtain ⟨origin, shape, hover, hshape⟩ := RuleDef.exists_of_mem_primaryNumbers hnum
      refine ⟨origin, hover.mem, ?_⟩
      rw [← hover.all hshape]
      exact (skips_of_shows hshows fun _ => IsIdle.isSilent).mp hskips

/-- A new rule can be stepped over if an alternative of the rule as it was written can be. If this is an
operator, its first operand tells. -/
theorem Eliminates.skipsRule_of_written {name : String} {written : RuleDef}
    (hdefines : before.Defines name written) {alt : Alt} (halt : alt ∈ written.alts)
    (hskips : ∀ e ∈ alt.elements, after.Skips e) : after.SkipsRule name := by
  obtain ⟨next, hnext, hbecomes⟩ := h.forth name written hdefines
  cases hbecomes with
  | kept hnot =>
      obtain ⟨alt', halt', hsame⟩ := exists_mem_demandAny names halt
      exact ⟨_, hnext, alt', halt', skips_of_allBare hskips hsame.symm⟩
  | loop hmem hname hcommands hunrolls =>
      obtain ⟨num, ⟨hnum, shape, hover, hshape⟩ | ⟨hnum, shape, hover, hshape⟩⟩ :=
        exists_handsOver_of_mem hunrolls halt
      · obtain ⟨alt', halt', hshows⟩ :=
          hunrolls.exists_shows_primary hcommands (h.options name written hdefines) names hnum
        rw [← hover.all hshape] at hskips
        exact ⟨_, hnext, (skips_loop (hunrolls.loop.mapOptions (demandingAny names)).1).mpr
          ⟨alt', halt', (skips_of_shows hshows fun _ => IsIdle.isSilent).mpr hskips⟩⟩
      · obtain ⟨first, helements, hfirst⟩ := hover.tail hshape
        rw [hname] at hfirst
        refine ((skips_of_refersTo hfirst).mp (hskips first ?_)).resolve_left fun hnone => ?_
        · rw [helements]
          exact List.mem_cons_self ..
        · obtain ⟨rule, hrule, -⟩ := hnext
          cases hnone.symm.trans hrule

/-- What can be stepped over is the same before and after. -/
theorem Eliminates.skips_iff (e : Element) : after.Skips e ↔ before.Skips e := by
  constructor
  · intro hskips
    induction hskips with
    | action code => exact .action code
    | predicate code => exact .predicate code
    | command name arg extent => exact .command name arg extent
    | epsilon extent => exact .epsilon extent
    | labeled _ ih => exact .labeled ih
    | skipped hsuffix => exact .skipped hsuffix
    | repeated _ ih => exact .repeated ih
    | block halt _ ih => exact .block halt ih
    | missing hcallee hnone =>
        rw [h.callee?_eq] at hcallee
        exact .missing hcallee ((h.missing _).mp hnone)
    | reference hcallee hdefines halt _ ih =>
        rw [h.callee?_eq] at hcallee
        exact (skips_of_callee? hcallee).mpr (.inr (h.skipsRule_of_next hdefines halt ih))
  · intro hskips
    induction hskips with
    | action code => exact .action code
    | predicate code => exact .predicate code
    | command name arg extent => exact .command name arg extent
    | epsilon extent => exact .epsilon extent
    | labeled _ ih => exact .labeled ih
    | skipped hsuffix => exact .skipped hsuffix
    | repeated _ ih => exact .repeated ih
    | block halt _ ih => exact .block halt ih
    | missing hcallee hnone =>
        rw [← h.callee?_eq] at hcallee
        exact .missing hcallee ((h.missing _).mpr hnone)
    | reference hcallee hdefines halt _ ih =>
        rw [← h.callee?_eq] at hcallee
        exact (skips_of_callee? hcallee).mpr (.inr (h.skipsRule_of_written hdefines halt ih))

/-- The rules that can be stepped over are the same before and after. -/
theorem Eliminates.skipsRule_iff (name : String) : after.SkipsRule name ↔ before.SkipsRule name := by
  constructor
  · rintro ⟨next, hnext, alt, halt, hskips⟩
    exact h.skipsRule_of_next hnext halt fun e he => (h.skips_iff e).mp (hskips e he)
  · rintro ⟨written, hwritten, alt, halt, hskips⟩
    exact h.skipsRule_of_written hwritten halt fun e he => (h.skips_iff e).mpr (hskips e he)

/-! ## What is called -/

/-- What is met in a row is the same before and after. -/
theorem Eliminates.meets_iff (row : List Element) (name : String) :
    after.Meets row name ↔ before.Meets row name := by
  have hkind : after.kind = before.kind := h.kind'.trans h.kind.symm
  exact ⟨.transfer hkind fun e => (h.skips_iff e).mp, .transfer hkind.symm fun e => (h.skips_iff e).mpr⟩

/-- What a new rule comes to, the rule that was written comes to, and not only by the references that it is
rid of. -/
theorem Eliminates.meetsElsewhere_of_next {caller callee : String} {written : RuleDef}
    (hwritten : before.Defines caller written) {next : RuleDef} (hnext : after.Defines caller next)
    (hbecomes : written.Becomes grammar names caller next) {alt : Alt} (halt : alt ∈ next.alts)
    (hmeets : before.Meets alt.elements callee) :
    ∃ was ∈ written.alts, before.MeetsElsewhere names caller was callee := by
  unfold MeetsElsewhere
  have hoptions := h.options caller written hwritten
  cases hbecomes with
  | kept hnot =>
      obtain ⟨was, hwas, hsame⟩ := exists_of_mem_demandAny names halt
      refine ⟨was, hwas, ?_⟩
      rw [if_neg fun hown => hnot hown.1]
      exact meets_of_allBare hmeets hsame
  | loop hmem hname hcommands hunrolls =>
      have hloop := (hunrolls.loop.mapOptions (demandingAny names)).1
      rcases (meets_loop hloop).mp ⟨alt, halt, hmeets⟩ with ⟨alt, halt, hmeets⟩ |
        ⟨⟨alt, halt, hskips⟩, alt', halt', hmeets⟩
      · obtain ⟨num, hnum, hshows⟩ := hunrolls.shows_of_mem_primary hcommands hoptions names halt
        obtain ⟨origin, shape, hover, hshape⟩ := RuleDef.exists_of_mem_primaryNumbers hnum
        refine ⟨origin, hover.mem, ?_⟩
        have hbegins := hover.beginsWith
        rw [hname, hshape] at hbegins
        rw [if_neg fun hown => Bool.false_ne_true (hbegins.symm.trans hown.2), ← hover.all hshape]
        exact (meets_of_shows hshows (fun _ => IsIdle.isSilent) fun _ hfront _ =>
          not_meets_of_isIdle hfront).mp hmeets
      · obtain ⟨num, hnum, hshows⟩ := hunrolls.shows_of_mem_operator hcommands hoptions names halt'
        obtain ⟨origin, shape, hover, hshape⟩ := RuleDef.exists_of_mem_operatorNumbers hnum
        refine ⟨origin, hover.mem, ?_⟩
        obtain ⟨first, helements, hfirst⟩ := hover.tail hshape
        have hbegins := hover.beginsWith
        rw [hname] at hbegins hfirst
        rw [if_pos ⟨hmem, hbegins.trans hshape⟩, helements]
        refine ⟨fun e he => ?_, ?_⟩
        · -- the block is stepped over, so the rule can be, and the reference to it that comes first
          obtain rfl := Option.some.inj he
          refine (skips_of_refersTo hfirst).mpr (.inr ?_)
          obtain ⟨alt, halt, hskips⟩ := (skips_loop hloop).mpr ⟨alt, halt, hskips⟩
          exact h.skipsRule_of_next hnext halt hskips
        · exact (meets_of_shows hshows (fun _ hfront => hfront.isGuard.isSilent) fun _ hfront _ =>
            not_meets_of_isGuard hfront.isGuard).mp hmeets

/-- What the rule that was written comes to, but for the references that it is rid of, the new rule comes
to. -/
theorem Eliminates.meets_of_meetsElsewhere {caller callee : String} {written : RuleDef}
    (hwritten : before.Defines caller written) {next : RuleDef} (hnext : after.Defines caller next)
    (hbecomes : written.Becomes grammar names caller next) {was : Alt} (hwas : was ∈ written.alts)
    (hmeets : before.MeetsElsewhere names caller was callee) :
    ∃ alt ∈ next.alts, before.Meets alt.elements callee := by
  unfold MeetsElsewhere at hmeets
  have hoptions := h.options caller written hwritten
  cases hbecomes with
  | kept hnot =>
      rw [if_neg fun hown => hnot hown.1] at hmeets
      obtain ⟨alt, halt, hsame⟩ := exists_mem_demandAny names hwas
      exact ⟨alt, halt, meets_of_allBare hmeets hsame.symm⟩
  | loop hmem hname hcommands hunrolls =>
      have hloop := (hunrolls.loop.mapOptions (demandingAny names)).1
      refine (meets_loop hloop).mpr ?_
      obtain ⟨num, ⟨hnum, shape, hover, hshape⟩ | ⟨hnum, shape, hover, hshape⟩⟩ :=
        exists_handsOver_of_mem hunrolls hwas
      · have hbegins := hover.beginsWith
        rw [hname, hshape] at hbegins
        rw [if_neg fun hown => Bool.false_ne_true (hbegins.symm.trans hown.2), ← hover.all hshape]
          at hmeets
        obtain ⟨alt, halt, hshows⟩ := hunrolls.exists_shows_primary hcommands hoptions names hnum
        exact .inl ⟨alt, halt, (meets_of_shows hshows (fun _ => IsIdle.isSilent) fun _ hfront _ =>
          not_meets_of_isIdle hfront).mpr hmeets⟩
      · obtain ⟨first, helements, hfirst⟩ := hover.tail hshape
        have hbegins := hover.beginsWith
        rw [hname] at hbegins hfirst
        rw [if_pos ⟨hmem, hbegins.trans hshape⟩, helements] at hmeets
        obtain ⟨hskips, hmeets⟩ := hmeets
        obtain ⟨alt, halt, hshows⟩ := hunrolls.exists_shows_operator hcommands hoptions names hnum
        refine .inr ⟨(skips_loop hloop).mp ?_, alt, halt, (meets_of_shows hshows
          (fun _ hfront => hfront.isGuard.isSilent)
          fun _ hfront _ => not_meets_of_isGuard hfront.isGuard).mpr hmeets⟩
        -- the reference that comes first is stepped over, so the rule can be
        obtain hnone | hrule := (skips_of_refersTo hfirst).mp (hskips first rfl)
        · obtain ⟨rule, hrule, -⟩ := hwritten
          cases hnone.symm.trans hrule
        · obtain ⟨next', hnext', alt, halt, hskips⟩ := (h.skipsRule_iff caller).mpr hrule
          obtain rfl := hnext'.unique hnext
          exact ⟨alt, halt, fun e he => (h.skips_iff e).mp (hskips e he)⟩

/-- A rule calls another one on its left if it did before, and not only by the reference to itself that an
alternative of a rule that has given way to a loop begins with. -/
theorem Eliminates.leftCalls_iff (caller callee : String) :
    after.LeftCalls caller callee ↔ before.LeftCallsElsewhere names caller callee := by
  have hcallee : (∃ rule, after.rule? callee = some rule) ↔ ∃ rule, before.rule? callee = some rule := by
    rw [← Option.isSome_iff_exists, ← Option.isSome_iff_exists, ← Option.ne_none_iff_isSome,
      ← Option.ne_none_iff_isSome]
    exact not_congr (h.missing callee)
  refine and_congr hcallee ⟨?_, ?_⟩
  · rintro ⟨next, hnext, alt, halt, hmeets⟩
    obtain ⟨written, hwritten, hbecomes⟩ := h.back caller next hnext
    exact ⟨written, hwritten, h.meetsElsewhere_of_next hwritten hnext hbecomes halt
      ((h.meets_iff _ _).mp hmeets)⟩
  · rintro ⟨written, hwritten, was, hwas, hmeets⟩
    obtain ⟨next, hnext, hbecomes⟩ := h.forth caller written hwritten
    obtain ⟨alt, halt, hmeets⟩ := h.meets_of_meetsElsewhere hwritten hnext hbecomes hwas hmeets
    exact ⟨next, hnext, alt, halt, (h.meets_iff _ _).mpr hmeets⟩

end Eliminates

end Dialect

/-! ## Left recursion is eliminated -/

namespace Grammar

/-- Rules keep their names if left-recursive rules do. -/
theorem nodup_eliminate {library : Library} {file source : String} {grammar : Grammar}
    {report : Report} (hgather : gather library file source = (some grammar, report))
    (himports : grammar.source.imports = []) (hwritable : grammar.Writable)
    (hissues : AllWarnings (grammar.eliminate .standard).2.1) :
    ((grammar.eliminate .standard).1.rules.map (·.name)).Nodup := by
  obtain ⟨unrolled, hunrolled, heliminate⟩ := unrolled_eliminate hgather himports hwritable hissues
  have hnames := congrArg (List.map Prod.fst) hunrolled.rules
  rw [List.map_map, List.map_map] at hnames
  rw [heliminate]
  exact (show unrolled.rules.map (·.name) = grammar.rules.map (·.name) from hnames) ▸
    nodup_gather hgather

/-- The elimination of left recursion, if it reports no error, does nothing to the calls of a grammar but to
remove leading references. The parser rules that can be stepped over are the same before and after. Rules
call each other on their left as before, but not by the reference to itself that an alternative of a
left-recursive rule begins with. So the network of the new grammar has cycles exactly if a rule came to
call itself on its left before, without such references. Left-recursive rules have to keep their names. -/
theorem eliminate_leftCalls {library : Library} {file source : String} {grammar : Grammar}
    {report : Report} (hgather : gather library file source = (some grammar, report))
    (himports : grammar.source.imports = [])
    (hoptions : ∀ rule ∈ grammar.source.rules, rule.isLexerRule = false → LacksOptions rule.nodes)
    (hcommands : ∀ rule ∈ grammar.source.rules, rule.isLexerRule = false → rule.isLeftRecursive = true →
      LacksCommands rule.nodes)
    (hnames : ∀ rule ∈ grammar.source.rules, rule.isLexerRule = false → rule.isLeftRecursive = true →
      rule.KeepsName)
    (hissues : AllWarnings (grammar.eliminate .standard).2.1) {vocabulary : Vocabulary}
    (hfits : vocabulary.Fits) {before after : Dialect}
    (hbefore : before = grammar.parserDialect vocabulary)
    (hafter : after = (grammar.eliminate .standard).1.parserDialect vocabulary) :
    (∀ name, after.SkipsRule name ↔ before.SkipsRule name) ∧
      (∀ caller callee, after.LeftCalls caller callee ↔
        before.LeftCallsElsewhere grammar.leftRecursiveRules caller callee) ∧
      ((Network.ofGrammar after.grammar vocabulary .parser).cycles ≠ [] ↔ ∃ name,
        Relation.TransGen (before.LeftCallsElsewhere grammar.leftRecursiveRules) name name) := by
  have heliminates : before.Eliminates after grammar grammar.leftRecursiveRules := by
    rw [hbefore, hafter]
    exact eliminates_parserDialect hgather himports hoptions hcommands hnames hissues vocabulary
  refine ⟨heliminates.skipsRule_iff, heliminates.leftCalls_iff, ?_⟩
  have hsteady := (steady_gather hgather).eliminate .standard
  have hnodup := nodup_eliminate hgather himports
    ⟨fun rule hrule hkind _ => (hoptions rule hrule hkind).unquotedIn _, hnames⟩ hissues
  have hhosts := Network.hosts_ofGrammar hsteady.numbered hfits .parser after.passes
  obtain ⟨hsound, -, -, hsize⟩ := Network.sound_ofGrammar hsteady.numbered hfits .parser
  rw [← show after.LeftCalls = before.LeftCallsElsewhere grammar.leftRecursiveRules from
    funext fun caller => funext fun callee => propext (heliminates.leftCalls_iff caller callee)]
  subst hafter
  exact hhosts.cycles_iff rfl hsteady hsound hsize hnodup

/-- A rule that is still left-recursive by another rule, in front of its only primary alternative. -/
theorem eliminate_leftCalls_mutual :
    ∃ (grammar : Grammar) (report : Report) (vocabulary : Vocabulary) (before after : Dialect),
      gather .empty "T.g" "parser grammar T; e : e B e | s? Y ; s : e ;" = (some grammar, report) ∧
      before = grammar.parserDialect vocabulary ∧
      after = (grammar.eliminate .standard).1.parserDialect vocabulary ∧
      (Network.ofGrammar after.grammar vocabulary .parser).cycles = [[0, 1]] ∧
      (∀ name, after.SkipsRule name ↔ before.SkipsRule name) ∧
      (∀ caller callee, after.LeftCalls caller callee ↔
        before.LeftCallsElsewhere ["e"] caller callee) ∧
      ∃ name, Relation.TransGen (before.LeftCallsElsewhere ["e"]) name name := by
  have hgood : (gather .empty "T.g" "parser grammar T; e : e B e | s? Y ; s : e ;").1.any
      fun grammar =>
    let vocabulary := (Vocabulary.ofGrammar grammar).1
    decide (grammar.source.imports = [] ∧
      (∀ rule ∈ grammar.source.rules, LacksOptions rule.nodes) ∧
      (∀ rule ∈ grammar.source.rules, rule.isLeftRecursive = true → LacksCommands rule.nodes) ∧
      (∀ rule ∈ grammar.source.rules, rule.isLeftRecursive = true → rule.KeepsName) ∧
      (∀ issue ∈ (grammar.eliminate .standard).2.1, issue.severity = .warning) ∧
      grammar.leftRecursiveRules = ["e"] ∧ vocabulary.nextType ≤ Text.maxInt32 ∧
      (Network.ofGrammar (grammar.eliminate .standard).1 vocabulary .parser).cycles = [[0, 1]]) := by
    decide +kernel
  obtain ⟨grammar, report, hgather, hgood⟩ := exists_gather_of_any hgood
  obtain ⟨himports, hoptions, hcommands, hnames, hissues, hlist, hsize, hcycles⟩ := of_decide_eq_true hgood
  obtain ⟨hskips, hcalls, hiff⟩ := eliminate_leftCalls hgather himports
    (fun rule hrule _ => hoptions rule hrule) (fun rule hrule _ => hcommands rule hrule)
    (fun rule hrule _ => hnames rule hrule) hissues
    ((Vocabulary.below_ofGrammar grammar).fits hsize).1 rfl rfl
  rw [hlist] at hcalls hiff
  refine ⟨grammar, report, _, _, _, hgather, rfl, rfl, hcycles, hskips, hcalls, hiff.mp ?_⟩
  exact fun hnil => List.cons_ne_nil _ _ (hcycles.symm.trans hnil)

end Grammar

end GrammarCompiler
