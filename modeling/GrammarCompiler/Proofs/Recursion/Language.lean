import GrammarCompiler.Proofs.Recursion.Rendered

/-!
# The elimination of left recursion keeps the language

A rule derives the same texts before and after left recursion has been eliminated from its grammar
(`Grammar.eliminate_language`).

In one direction the texts of the grammar as it was written go with each other as the texts of the new
grammar have to: what an operator appends to a text of its rule is a text of the rule again, and so is
what a loop of operators appends (`Dialect.Eliminates.sound`). Precedences only leave texts out.

In the other direction they must not leave out too much. A text of a rule is one of a primary
alternative and then texts of operators. The primary alternatives are derived whatever precedence the
rule is entered with, and the loop need not be entered at all. So the last operand of an operator may
be taken to be a text of a primary alternative only, and what follows in it is left to the loop that
the operator itself stands in, which is entered with the precedence 0
(`Dialect.Eliminates.rowTexts_carried_le`).
-/

namespace GrammarCompiler

open Network (precedenceIn?)
open scoped Computability

/-! ## References and silent elements -/

section Texts

variable (leaf : Element → Language Int) (calls : String → Language Int)

theorem Element.texts_of_refersTo {e : Element} {name : String} (h : e.refersTo name = true) :
    e.texts leaf calls = calls name := by
  obtain ⟨ref, href, hname⟩ := (Option.any_eq_true _ _).mp h
  obtain rfl : ref.name = name := by simpa using hname
  unfold Element.asRuleRef? at href
  split at href <;> cases href <;> rfl

theorem Element.rowTexts_of_isSilent {es : List Element} (h : ∀ e ∈ es, e.isSilent = true) :
    Element.rowTexts leaf calls es = 1 := by
  induction es with
  | nil => rfl
  | cons e es ih =>
      obtain ⟨he, hes⟩ := List.forall_mem_cons.mp h
      rw [Element.rowTexts, ih hes, mul_one]
      cases e <;> first | rfl | cases he

end Texts

theorem Element.isSilent_bare (e : Element) : e.bare.isSilent = e.isSilent := by
  cases e <;> rfl

theorem Element.refersTo_bare (e : Element) (name : String) : e.bare.refersTo name = e.refersTo name := by
  cases e with
  | labeled isList label token inner extent => cases inner <;> rfl
  | _ => rfl

theorem Element.isSilent_of_allBare {es fs : List Element} (h : Element.allBare es = Element.allBare fs)
    (hfs : ∀ e ∈ fs, e.isSilent = true) : ∀ e ∈ es, e.isSilent = true := by
  intro e he
  obtain ⟨f, hf, hsame⟩ := Element.exists_of_allBare h.symm he
  rw [← e.isSilent_bare, ← hsame, f.isSilent_bare]
  exact hfs f hf

/-- A rule with a block and a loop is told by its blocks. -/
theorem RuleDef.IsLoop.exists_blocks {rule : RuleDef} (h : rule.IsLoop) :
    ∃ options extent loop options' label extent' info,
      rule.alts = [⟨.block rule.primaryBlock options extent :: loop, options', label, extent', info⟩] ∧
        (loop = [] ∧ rule.operatorBlock = [] ∨ ∃ greedy options extent extent',
          loop = [.suffixed .closure greedy (.block rule.operatorBlock options extent) extent']) := by
  unfold RuleDef.primaryBlock RuleDef.operatorBlock
  obtain ⟨alts, options, extent, loop, options', label, outer, info, halts, hloop⟩ := h
  rw [halts]
  refine ⟨options, extent, loop, options', label, outer, info, rfl, ?_⟩
  rcases hloop with rfl | ⟨greedy, ops, options'', inner, outer', rfl⟩
  · exact .inl ⟨rfl, rfl⟩
  · exact .inr ⟨greedy, options'', inner, outer', rfl⟩

/-! ## Rows as texts -/

theorem IsIdle.isSilent {front : List Element} (h : IsIdle front) : ∀ e ∈ front, e.isSilent = true := by
  intro e he
  obtain ⟨code, rfl⟩ := h e he
  rfl

theorem IsGuard.isSilent {front : List Element} (h : IsGuard front) : ∀ e ∈ front, e.isSilent = true := by
  obtain ⟨code, rfl, -⟩ := h
  exact fun e he => List.mem_singleton.mp he ▸ rfl

/-- What stands for an alternative has the texts of what goes over from it. -/
theorem RuleDef.Shows.rowTexts {written : RuleDef} {names : List String} {lead : List Element → Prop}
    {alt : Alt} {num : Nat} (h : written.Shows names lead alt num)
    (hlead : ∀ front, lead front → ∀ e ∈ front, e.isSilent = true) {leaf : Element → Language Int}
    (hleaf : ∀ e : Element, leaf e.bare = leaf e) (calls : String → Language Int) :
    Element.rowTexts leaf calls alt.elements = Element.rowTexts leaf calls (written.carried num) := by
  obtain ⟨front, row, helements, hfront, hrenders⟩ := h
  rw [helements, Element.rowTexts_append, Element.rowTexts_of_isSilent _ _ (hlead front hfront), one_mul,
    Element.rowTexts_congr calls hleaf hrenders.bare]

/-- What a rule of a name becomes: the loop that stands for it if the name is listed, and in any case
its references to rules that are listed demand a precedence. A rule that gives way to a loop has no lexer
commands, which would be read back as references. -/
inductive RuleDef.Becomes (written : RuleDef) (grammar : Grammar) (names : List String) (name : String) :
    RuleDef → Prop
  | loop {next : RuleDef} : name ∈ names → written.name = name → LacksCommands written.nodes →
    grammar.Unrolls written next → Becomes written grammar names name (Grammar.demandAny names next)
  | kept : name ∉ names → Becomes written grammar names name (Grammar.demandAny names written)

namespace Dialect

/-! ## Texts of rules -/

/-- The texts of the rule of a name that is entered with the precedence 0. -/
def textsOf (dialect : Dialect) (name : String) : Language Int :=
  { w | ∃ definition, dialect.Defines name definition ∧ dialect.DerivesRule definition 0 w }

/-- The texts of rules that are level go with each other. -/
theorem closed_textsOf {dialect : Dialect}
    (hlevel : ∀ name definition, dialect.Defines name definition →
      ∀ node ∈ definition.nodes, node.IsLevel) : dialect.Closed dialect.textsOf := by
  intro name definition hdefines alt halt w hw
  refine ⟨definition, hdefines, alt, halt, ?_⟩
  have hbacks : dialect.Backs dialect.textsOf := fun _ _ hu => hu
  refine (offers_rowTexts hbacks 0 alt.elements fun node hnode => ?_).derives hw
  exact hlevel name definition hdefines node (Alt.nodes_subset_of_mem halt hnode)

/-! ## Loops -/

/-- The texts of the primary alternatives of a rule, whatever precedence it is entered with. -/
def innerTexts (dialect : Dialect) (rule : RuleDef) : Language Int :=
  { w | ∀ entry, ∃ alt ∈ rule.primaryBlock, dialect.Derives entry alt.elements w }

/-- The texts of the operators of a rule that is entered with the precedence 0. -/
def outerTexts (dialect : Dialect) (rule : RuleDef) : Language Int :=
  { w | ∃ alt ∈ rule.operatorBlock, dialect.Derives 0 alt.elements w }

section Loops

variable {dialect : Dialect} {rule : RuleDef} (h : rule.IsLoop)

include h

/-- The texts of a loop go with those of its blocks. -/
theorem rowTexts_loop_le (leaf : Element → Language Int) (calls : String → Language Int) :
    ∀ alt ∈ rule.alts, Element.rowTexts leaf calls alt.elements ≤
      Alt.allTexts leaf calls rule.primaryBlock * (Alt.allTexts leaf calls rule.operatorBlock)∗ := by
  obtain ⟨options, extent, loop, options', label, outer, info, halts, hloop⟩ := h.exists_blocks
  rw [halts]
  rintro alt halt
  obtain rfl := List.mem_singleton.mp halt
  rcases hloop with ⟨rfl, -⟩ | ⟨greedy, options'', inner, outer', rfl⟩
  · exact mul_le_mul_right one_le_kstar _
  · show Alt.allTexts leaf calls rule.primaryBlock *
      ((Alt.allTexts leaf calls rule.operatorBlock)∗ * 1) ≤ _
    rw [mul_one]

/-- A loop need not be entered. -/
theorem derivesRule_of_innerTexts {w : List Int} (hw : w ∈ dialect.innerTexts rule) (entry : Int) :
    dialect.DerivesRule rule entry w := by
  obtain ⟨options, extent, loop, options', label, outer, info, halts, hloop⟩ := h.exists_blocks
  obtain ⟨alt, halt, hderives⟩ := hw entry
  refine ⟨_, by rw [halts]; exact List.mem_singleton_self _, .block halt ?_⟩
  rw [← List.append_nil w]
  refine hderives.append ?_
  rcases hloop with ⟨rfl, -⟩ | ⟨greedy, options'', inner, outer', rfl⟩
  · exact .done entry
  · exact .skip nofun (.done entry)

/-- A rule that is entered with the precedence 0 derives the texts of its primary alternatives and then
of its operators. -/
theorem derivesRule_of_loop {w : List Int}
    (hw : w ∈ dialect.innerTexts rule * (dialect.outerTexts rule)∗) : dialect.DerivesRule rule 0 w := by
  obtain ⟨options, extent, loop, options', label, outer, info, halts, hloop⟩ := h.exists_blocks
  obtain ⟨u, hu, v, hv, rfl⟩ := Language.mem_mul.mp hw
  obtain ⟨alt, halt, hderives⟩ := hu 0
  refine ⟨_, by rw [halts]; exact List.mem_singleton_self _, .block halt (hderives.append ?_)⟩
  rcases hloop with ⟨rfl, hnone⟩ | ⟨greedy, options'', inner, outer', rfl⟩
  · have houter : dialect.outerTexts rule = 0 := by
      refine Language.ext fun w => ⟨?_, fun hw => absurd hw (Language.notMem_zero w)⟩
      rintro ⟨alt, halt, -⟩
      rw [hnone] at halt
      cases halt
    rw [houter, kstar_zero] at hv
    obtain rfl := (Language.mem_one v).mp hv
    exact .done 0
  · have hops : dialect.Offers 0 [.block rule.operatorBlock options'' inner]
        (dialect.outerTexts rule) := by
      rintro u ⟨alt, halt, hu⟩ row w hrow
      exact .block halt (hu.append hrow)
    exact (hops.closure greedy outer').derives hv

end Loops


/-- Whether the rules of some names have given way to loops, and grammars are understood alike otherwise.
Entered with the precedence 0, no rule is closed to an operator. -/
structure Eliminates (before after : Dialect) (grammar : Grammar) (names : List String) : Prop where
  kind : before.kind = .parser
  kind' : after.kind = .parser
  leafTexts : after.leafTexts = before.leafTexts
  passes : ∀ q, 0 ≤ q → after.passes 0 q
  missing : ∀ name, after.rule? name = none ↔ before.rule? name = none
  options : ∀ name written, before.Defines name written → LacksOptions written.nodes
  forth : ∀ name written, before.Defines name written →
    ∃ next, after.Defines name next ∧ written.Becomes grammar names name next
  back : ∀ name next, after.Defines name next →
    ∃ written, before.Defines name written ∧ written.Becomes grammar names name next

variable {before after : Dialect} {grammar : Grammar} {names : List String}
  (h : before.Eliminates after grammar names)

include h

theorem Eliminates.isLevel {name : String} {written : RuleDef} (hdefines : before.Defines name written) :
    ∀ node ∈ written.nodes, node.IsLevel :=
  (h.options name written hdefines).isLevel

/-! ## Nothing is added -/

/-- The texts of a primary alternative are texts of the rule. -/
theorem Eliminates.carried_le_of_primary {name : String} {written : RuleDef}
    (hdefines : before.Defines name written) {num : Nat} (hnum : num ∈ written.primaryNumbers) :
    Element.rowTexts before.leafTexts before.textsOf (written.carried num) ≤ before.textsOf name := by
  obtain ⟨origin, shape, hover, hshape⟩ := RuleDef.exists_of_mem_primaryNumbers hnum
  rw [hover.all hshape]
  exact closed_textsOf (fun _ _ => h.isLevel) name written hdefines origin hover.mem

/-- A text of the rule with the text of an operator behind it is a text of the rule. -/
theorem Eliminates.mul_carried_le_of_operator {name : String} {written : RuleDef}
    (hdefines : before.Defines name written) (hname : written.name = name) {num : Nat}
    (hnum : num ∈ written.operatorNumbers) : before.textsOf name *
      Element.rowTexts before.leafTexts before.textsOf (written.carried num) ≤ before.textsOf name := by
  obtain ⟨origin, shape, hover, hshape⟩ := RuleDef.exists_of_mem_operatorNumbers hnum
  obtain ⟨first, helements, hfirst⟩ := hover.tail hshape
  have hclosed := closed_textsOf (fun _ _ => h.isLevel) name written hdefines origin hover.mem
  rwa [helements, Element.rowTexts, Element.texts_of_refersTo _ _ hfirst, hname] at hclosed

/-- The texts of the grammar as it was written go with each other as those of the new rules have to. -/
theorem Eliminates.closed : after.Closed before.textsOf := by
  intro name next hnext alt halt
  rw [h.leafTexts]
  have hleaf := before.leafTexts_bare
  obtain ⟨written, hdefines, hbecomes⟩ := h.back name next hnext
  have hoptions := h.options name written hdefines
  cases hbecomes with
  | kept hnot =>
      rw [demandAny_eq] at halt
      rw [show (written.mapOptions (demandingAny names) ()).2.alts =
        (Alt.mapListOptions (demandingAny names) () written.alts).2 from rfl,
        Alt.mapListOptions_eq_map] at halt
      obtain ⟨was, hwas, rfl⟩ := List.mem_map.mp halt
      refine le_of_eq_of_le ?_ (closed_textsOf (fun _ _ => h.isLevel) name written hdefines was hwas)
      refine Element.rowTexts_congr _ hleaf ?_
      obtain ⟨elements, options, label, extent, info⟩ := was
      exact Element.allBare_mapOptions _ elements ()
  | loop hmem hname hcommands hunrolls =>
      have hloop := (hunrolls.loop.mapOptions (demandingAny names)).1
      refine (rowTexts_loop_le hloop _ _ alt halt).trans (mul_kstar_le ?_ ?_)
      · intro w hw
        obtain ⟨alt, halt, hw⟩ := (Alt.mem_allTexts _ _).mp hw
        obtain ⟨num, hnum, hshows⟩ := hunrolls.shows_of_mem_primary hcommands hoptions names halt
        rw [hshows.rowTexts (fun _ => IsIdle.isSilent) hleaf] at hw
        exact h.carried_le_of_primary hdefines hnum hw
      · intro w hw
        obtain ⟨u, hu, v, hv, rfl⟩ := Language.mem_mul.mp hw
        obtain ⟨alt, halt, hv⟩ := (Alt.mem_allTexts _ _).mp hv
        obtain ⟨num, hnum, hshows⟩ := hunrolls.shows_of_mem_operator hcommands hoptions names halt
        rw [hshows.rowTexts (fun _ hfront => hfront.isGuard.isSilent) hleaf] at hv
        exact h.mul_carried_le_of_operator hdefines hname hnum (Language.append_mem_mul hu hv)

/-- What a new rule derives, the rule that was written derives. -/
theorem Eliminates.sound {name : String} {w : List Int} (hw : w ∈ after.textsOf name) :
    w ∈ before.textsOf name := by
  obtain ⟨next, hnext, alt, halt, hderives⟩ := hw
  exact h.closed name next hnext alt halt (hderives.mem_rowTexts h.kind' h.closed)

/-! ## Nothing is left out -/

/-- The texts of a new rule, as they are put together from those of its blocks if it is a loop. -/
def partedTexts (after : Dialect) (names : List String) (name : String) : Language Int :=
  { w | ∃ next, after.Defines name next ∧
    if name ∈ names then w ∈ after.innerTexts next * (after.outerTexts next)∗
    else after.DerivesRule next 0 w }

/-- New rules derive the texts that are put together. -/
theorem Eliminates.backs : after.Backs (after.partedTexts names) := by
  rintro name w ⟨next, hnext, hw⟩
  obtain ⟨written, hdefines, hbecomes⟩ := h.back name next hnext
  refine ⟨next, hnext, ?_⟩
  cases hbecomes with
  | loop hmem hname hcommands hunrolls =>
      rw [if_pos hmem] at hw
      exact derivesRule_of_loop (hunrolls.loop.mapOptions (demandingAny names)).1 hw
  | kept hnot =>
      rw [if_neg hnot] at hw
      exact hw

/-- The texts that a row derives whatever precedence its rule is entered with. -/
def alwaysTexts (dialect : Dialect) (row : List Element) : Language Int :=
  { w | ∀ entry, dialect.Derives entry row w }

omit h in
theorem le_alwaysTexts {dialect : Dialect} {row : List Element} {l : Language Int}
    (hoffers : ∀ entry, dialect.Offers entry row l) : l ≤ dialect.alwaysTexts row :=
  fun _ hw entry => (hoffers entry).derives hw

omit h in
/-- A reference to a loop offers the texts of the primary alternatives, whatever it demands. -/
theorem offers_innerTexts {name : String} {next : RuleDef} (hnext : after.Defines name next)
    (hloop : next.IsLoop) {e : Element} (he : e.refersTo name = true) (entry : Int) :
    after.Offers entry [e] (after.innerTexts next) := by
  obtain ⟨ref, href, hname⟩ := (Option.any_eq_true _ _).mp he
  obtain rfl : ref.name = name := by simpa using hname
  have hcall : ∀ u ∈ after.innerTexts next, ∀ row w, after.Derives entry row w →
      after.Derives entry (.ruleRef ref :: row) (u ++ w) := by
    intro u hu row w hrow
    obtain ⟨alt, halt, hbody⟩ := derivesRule_of_innerTexts hloop hu ((precedenceIn? ref.options).getD 0)
    exact .call rfl hnext halt hbody hrow
  unfold Element.asRuleRef? at href
  split at href
  · obtain rfl := Option.some.inj href
    exact hcall
  · obtain rfl := Option.some.inj href
    exact fun u hu row w hrow => .labeled (hcall u hu row w hrow)
  · cases href

omit h in
/-- All references of an alternative but the last operand demand 0 at most. -/
theorem exists_marksOf {written : RuleDef} {num : Nat} {origin : Alt} {shape : AltShape}
    (hover : written.HandsOver num origin shape) (grammar : Grammar) (names : List String)
    {demanded : Nat}
    (hdemand : written.lastDemand num = some demanded) :
    ∃ marks mark, written.marksOf names num = marks ++ [mark] ∧
      ∀ m ∈ marks, m.demands = [] ∨ m.demands = ["0"] := by
  have hoperand : shape.hasLastOperand = true :=
    AltShape.hasLastOperand_of_demand ((hover.lastDemand grammar).symm.trans hdemand)
  obtain ⟨front, last, hrefs, -⟩ := hover.carriedRefs hoperand
  refine ⟨_, _, by rw [RuleDef.marksOf, hdemand, hrefs, List.dropLast_concat, List.getLast?_concat]; rfl,
    fun m hm => ?_⟩
  obtain ⟨ref, -, rfl⟩ := List.mem_map.mp hm
  dsimp only
  split
  · exact .inr rfl
  · exact .inl rfl

omit h in
theorem partedTexts_le {name : String} {next : RuleDef} (hnext : after.Defines name next)
    (hmem : name ∈ names) :
    after.partedTexts names name ≤ after.innerTexts next * (after.outerTexts next)∗ := by
  rintro w ⟨next', hnext', hw⟩
  obtain rfl := hnext.unique hnext'
  rwa [if_pos hmem] at hw

section Rows

variable {name : String} {written next : RuleDef} (hnext : after.Defines name next) (hloop : next.IsLoop)
  (hname : written.name = name) (hmem : name ∈ names) {num : Nat} {origin : Alt} {shape : AltShape}
  (hover : written.HandsOver num origin shape) {row : List Element}
  (hrenders : written.Renders names num row)

include hrenders

/-- A row that demands nothing of its last reference offers all its texts. -/
theorem Eliminates.offers_of_plain (hdemand : written.lastDemand num = none) (entry : Int) :
    after.Offers entry row
      (Element.rowTexts before.leafTexts (after.partedTexts names) (written.carried num)) := by
  rw [← Element.rowTexts_congr _ before.leafTexts_bare hrenders.bare, ← h.leafTexts]
  refine offers_rowTexts h.backs entry row (isLevel_of_demands ?_ hrenders.untested)
  rw [hrenders.marks, RuleDef.marksOf, hdemand]
  intro mark hmark
  obtain ⟨ref, -, rfl⟩ := List.mem_map.mp hmark
  dsimp only
  split
  · exact .inr rfl
  · exact .inl rfl

include hover hnext hloop hname

/-- A row that ends with an operand offers what comes in front of it with any text of a primary
alternative. -/
theorem Eliminates.offers_of_operand {front : List Element} {last : Element} {back : List Element}
    (hcarried : written.carried num = front ++ last :: back) (hlast : last.refersTo written.name = true)
    (hback : ∀ e ∈ back, e.isSilent = true) {demanded : Nat}
    (hdemand : written.lastDemand num = some demanded) (entry : Int) :
    after.Offers entry row (Element.rowTexts before.leafTexts (after.partedTexts names) front *
      after.innerTexts next) := by
  -- the row falls into parts like what goes over
  have hbare := hrenders.bare
  rw [hcarried, Element.allBare_eq_map, Element.allBare_eq_map, List.map_append, List.map_cons,
    List.map_eq_append_iff] at hbare
  obtain ⟨front', rest, rfl, hfront, hrest⟩ := hbare
  obtain ⟨last', back', rfl, hlast', hback'⟩ := List.map_eq_cons_iff.mp hrest
  rw [← Element.allBare_eq_map, ← Element.allBare_eq_map] at hfront hback'
  have hrefers : last'.refersTo name = true := by
    rw [← last'.refersTo_bare, hlast', last.refersTo_bare, ← hname]
    exact hlast
  have hsilent := Element.isSilent_of_allBare hback' hback
  -- so the last operand demands what the alternative does, and what comes in front of it is level
  obtain ⟨ref, href, -⟩ := ruleRefs_of_refersTo hrefers
  have hmarks := hrenders.marks
  have huntested := hrenders.untested
  simp only [Element.listNodes_append, Element.listNodes, List.filterMap_append, ruleRefs_append,
    List.map_append, ruleRefs_of_isSilent hsilent, href, List.append_eq_nil_iff] at hmarks huntested
  obtain ⟨marks, mark, hsplit, hdemands⟩ := exists_marksOf hover grammar names hdemand
  rw [hsplit] at hmarks
  have hlevel := (List.append_inj' hmarks rfl).1 ▸ hdemands
  have hoffersFront := offers_rowTexts h.backs entry front' (isLevel_of_demands hlevel huntested.1)
  have hoffersBack := offers_rowTexts h.backs entry back'
    (isLevel_of_demands (by rw [ruleRefs_of_isSilent hsilent]; nofun) huntested.2.2)
  rw [Element.rowTexts_of_isSilent _ _ hsilent] at hoffersBack
  rw [h.leafTexts, Element.rowTexts_congr _ before.leafTexts_bare hfront] at hoffersFront
  have hall := hoffersFront.append
    ((offers_innerTexts hnext hloop hrefers entry).append hoffersBack)
  rwa [mul_one] at hall

include hmem

/-- What goes over from an alternative is what the row derives with any precedence, and then maybe texts
of operators: those of the last operand. -/
theorem Eliminates.rowTexts_carried_le :
    Element.rowTexts before.leafTexts (after.partedTexts names) (written.carried num) ≤
      after.alwaysTexts row * (after.outerTexts next)∗ := by
  cases hdemand : written.lastDemand num with
  | none =>
      exact (le_alwaysTexts (h.offers_of_plain hrenders hdemand)).trans
        (le_mul_of_one_le_right' one_le_kstar)
  | some demanded =>
      have hoperand : shape.hasLastOperand = true :=
        AltShape.hasLastOperand_of_demand ((hover.lastDemand grammar).symm.trans hdemand)
      obtain ⟨front, last, back, hcarried, hlast, hback⟩ := Alt.exists_operand hover.shaped hoperand
      rw [← hover.carried] at hcarried
      have hcalled := partedTexts_le hnext hmem
      have hfront := le_alwaysTexts
        (h.offers_of_operand hnext hloop hname hover hrenders hcarried hlast hback hdemand)
      calc Element.rowTexts before.leafTexts (after.partedTexts names) (written.carried num)
          = Element.rowTexts before.leafTexts (after.partedTexts names) front *
              after.partedTexts names name := by
            rw [hcarried, Element.rowTexts_append, Element.rowTexts,
              Element.texts_of_refersTo _ _ hlast, hname, Element.rowTexts_of_isSilent _ _ hback, mul_one]
        _ ≤ Element.rowTexts before.leafTexts (after.partedTexts names) front *
              (after.innerTexts next * (after.outerTexts next)∗) := mul_le_mul_right hcalled _
        _ = Element.rowTexts before.leafTexts (after.partedTexts names) front * after.innerTexts next *
              (after.outerTexts next)∗ := (mul_assoc _ _ _).symm
        _ ≤ after.alwaysTexts row * (after.outerTexts next)∗ := mul_le_mul_left hfront _

end Rows

omit h in
/-- An alternative of a rule that is replaced is a primary one or an operator. -/
theorem exists_handsOver_of_mem {written next : RuleDef} (hunrolls : grammar.Unrolls written next)
    {alt : Alt} (halt : alt ∈ written.alts) : ∃ num,
    (num ∈ written.primaryNumbers ∧ ∃ shape, written.HandsOver num alt shape ∧
      shape.isOperator = false) ∨
      (num ∈ written.operatorNumbers ∧ ∃ shape, written.HandsOver num alt shape ∧
        shape.isOperator = true) := by
  obtain ⟨i, hi⟩ := List.mem_iff_getElem?.mp halt
  have hlt : i < written.alts.length := (List.getElem?_eq_some_iff.mp hi).1
  have hnum : i + 1 ∈ written.primaryNumbers ++ written.operatorNumbers :=
    hunrolls.once.mem_iff.mpr (List.mem_range'_1.mpr ⟨by omega, by omega⟩)
  have horigin : ∀ {origin shape}, written.HandsOver (i + 1) origin shape → origin = alt :=
    fun hover => Option.some.inj (hover.get.symm.trans hi)
  refine ⟨i + 1, (List.mem_append.mp hnum).imp (fun hprimary => ⟨hprimary, ?_⟩)
    fun hoperator => ⟨hoperator, ?_⟩⟩
  · obtain ⟨origin, shape, hover, hshape⟩ := RuleDef.exists_of_mem_primaryNumbers hprimary
    exact ⟨shape, horigin hover ▸ hover, hshape⟩
  · obtain ⟨origin, shape, hover, hshape⟩ := RuleDef.exists_of_mem_operatorNumbers hoperator
    exact ⟨shape, horigin hover ▸ hover, hshape⟩

omit h in
/-- Actions may stand in front of any row. -/
theorem offers_of_isIdle {dialect : Dialect} {entry : Int} {front : List Element} (hfront : IsIdle front) :
    dialect.Offers entry front 1 :=
  offers_one fun _ _ => Derives.prepend fun e he _ _ hrow => by
    obtain ⟨code, rfl⟩ := hfront e he
    exact .empty (.action code) hrow

omit h in
/-- The guard of an operator lets a rule pass that was entered with the precedence 0. -/
theorem offers_of_isGuard {dialect : Dialect} (hpasses : ∀ q, 0 ≤ q → dialect.passes 0 q)
    {front : List Element} (hfront : IsGuard front) : dialect.Offers 0 front 1 := by
  obtain ⟨code, rfl, hguard⟩ := hfront
  refine offers_one fun row w hrow => ?_
  cases htested : precedenceIn? code.options with
  | none => exact .empty (.predicate htested) hrow
  | some q => exact .precedence htested (hpasses q (hguard q htested)) hrow

/-- The alternatives of a rule that is replaced have the texts of the blocks that stand for them. -/
theorem Eliminates.rowTexts_le_of_loop {name : String} {written next : RuleDef} (hmem : name ∈ names)
    (hdefines : before.Defines name written) (hname : written.name = name)
    (hcommands : LacksCommands written.nodes) (hunrolls : grammar.Unrolls written next)
    (hnext : after.Defines name (Grammar.demandAny names next)) {alt : Alt} (halt : alt ∈ written.alts) :
    Element.rowTexts before.leafTexts (after.partedTexts names) alt.elements ≤
      after.innerTexts (Grammar.demandAny names next) *
        (after.outerTexts (Grammar.demandAny names next))∗ := by
  have hoptions := h.options name written hdefines
  have hloop := (hunrolls.loop.mapOptions (demandingAny names)).1
  obtain ⟨num, ⟨hnum, shape, hover, hshape⟩ | ⟨hnum, shape, hover, hshape⟩⟩ :=
    exists_handsOver_of_mem hunrolls halt
  · obtain ⟨alt', halt', front, row, helements, hfront, hrenders⟩ :=
      hunrolls.exists_shows_primary hcommands hoptions names hnum
    have hinner : after.alwaysTexts row ≤ after.innerTexts (Grammar.demandAny names next) := by
      intro w hw entry
      refine ⟨alt', halt', ?_⟩
      rw [helements]
      exact offers_of_isIdle hfront [] Language.nil_mem_one row w (hw entry)
    have hcarried := h.rowTexts_carried_le hnext hloop hname hmem hover hrenders
    rw [hover.all hshape] at hcarried
    exact hcarried.trans (mul_le_mul_left hinner _)
  · obtain ⟨alt', halt', front, row, helements, hfront, hrenders⟩ :=
      hunrolls.exists_shows_operator hcommands hoptions names hnum
    have houter : after.alwaysTexts row ≤ after.outerTexts (Grammar.demandAny names next) := by
      intro w hw
      refine ⟨alt', halt', ?_⟩
      rw [helements]
      exact offers_of_isGuard h.passes hfront.isGuard [] Language.nil_mem_one row w (hw 0)
    have hcarried := h.rowTexts_carried_le hnext hloop hname hmem hover hrenders
    have hcalled := partedTexts_le hnext hmem
    obtain ⟨first, hall, hfirst⟩ := hover.tail hshape
    generalize after.innerTexts (Grammar.demandAny names next) = inner at *
    generalize after.outerTexts (Grammar.demandAny names next) = outer at *
    calc Element.rowTexts before.leafTexts (after.partedTexts names) alt.elements
        = after.partedTexts names name *
            Element.rowTexts before.leafTexts (after.partedTexts names) (written.carried num) := by
          rw [hall, Element.rowTexts, Element.texts_of_refersTo _ _ hfirst, hname]
      _ ≤ inner * outer∗ * (outer * outer∗) :=
          mul_le_mul' hcalled (hcarried.trans (mul_le_mul_left houter _))
      _ ≤ inner * outer∗ * outer∗ := mul_le_mul_right mul_kstar_le_kstar _
      _ = inner * outer∗ := by rw [mul_assoc, kstar_mul_kstar]

/-- The texts that are put together go with each other as those of the written rules do. -/
theorem Eliminates.closed_partedTexts : before.Closed (after.partedTexts names) := by
  intro name written hdefines alt halt w hw
  obtain ⟨next, hnext, hbecomes⟩ := h.forth name written hdefines
  refine ⟨next, hnext, ?_⟩
  cases hbecomes with
  | loop hmem hname hcommands hunrolls =>
      rw [if_pos hmem]
      exact h.rowTexts_le_of_loop hmem hdefines hname hcommands hunrolls hnext halt hw
  | kept hnot =>
      rw [if_neg hnot]
      have hoptions : LacksOptions (Element.listNodes alt.elements) := fun e he =>
        h.options name written hdefines e (Alt.nodes_subset_of_mem halt he)
      refine ⟨(alt.mapOptions (demandingAny names) ()).2, ?_, ?_⟩
      · show _ ∈ (Alt.mapListOptions (demandingAny names) () written.alts).2
        rw [Alt.mapListOptions_eq_map]
        exact List.mem_map_of_mem halt
      obtain ⟨elements, options, label, extent, info⟩ := alt
      rw [← h.leafTexts, ← Element.rowTexts_congr _ after.leafTexts_bare
        (Element.allBare_mapOptions (demandingAny names) elements ())] at hw
      exact (offers_rowTexts h.backs 0 _ (hoptions.isLevel_demandingAny names)).derives hw

/-- What a rule that was written derives, the new rule derives. -/
theorem Eliminates.complete {name : String} {w : List Int} (hw : w ∈ before.textsOf name) :
    w ∈ after.textsOf name := by
  obtain ⟨written, hdefines, alt, halt, hderives⟩ := hw
  exact h.backs name w (h.closed_partedTexts name written hdefines alt halt
    (hderives.mem_rowTexts h.kind h.closed_partedTexts))

/-- A rule derives the same texts before and after. -/
theorem Eliminates.textsOf_eq (name : String) : after.textsOf name = before.textsOf name :=
  Language.ext fun _ => ⟨h.sound, h.complete⟩

end Dialect

/-! ## Left recursion is eliminated -/

namespace Dialect

/-- Whether a rule is read hangs on its name. -/
theorem rule?_eq (dialect : Dialect) (name : String) : dialect.rule? name =
    if isTokenName name == (dialect.kind == .lexer) then dialect.grammar.rule? name else none := by
  unfold rule?
  cases hrule : dialect.grammar.rule? name with
  | none => simp
  | some rule =>
      rw [Option.filter_some, Rule.isLexerRule, Grammar.name_of_rule? hrule]

/-- The places of definitions tell what a name stands for. -/
theorem defines_iff {dialect : Dialect} {name : String} {definition : RuleDef} :
    dialect.Defines name definition ↔ (isTokenName name == (dialect.kind == .lexer)) = true ∧
      ((dialect.grammar.rule? name).map (·.defIndex)).bind (dialect.grammar.source.rules[·]?) =
        some definition := by
  unfold Defines
  rw [rule?_eq]
  constructor
  · rintro ⟨rule, hrule, hdefinition⟩
    split at hrule
    · next hkind =>
        rw [hrule]
        exact ⟨hkind, hdefinition⟩
    · cases hrule
  · rintro ⟨hkind, hbind⟩
    obtain ⟨place, hplace, hdefinition⟩ := Option.bind_eq_some_iff.mp hbind
    obtain ⟨rule, hrule, rfl⟩ := Option.map_eq_some_iff.mp hplace
    rw [if_pos hkind]
    exact ⟨rule, hrule, hdefinition⟩

theorem Defines.mem_textsOf {dialect : Dialect} {name : String} {definition : RuleDef}
    (h : dialect.Defines name definition) {w : List Int} :
    w ∈ dialect.textsOf name ↔ dialect.DerivesRule definition 0 w := by
  constructor
  · rintro ⟨definition', hdefines, hderives⟩
    exact h.unique hdefines ▸ hderives
  · exact fun hderives => ⟨definition, h, hderives⟩

end Dialect

namespace Grammar

/-- Rules that have been replaced have given way to loops. -/
theorem Unrolled.eliminates (dialect : Dialect) {unrolled after : Grammar} {names : List String}
    (h : dialect.grammar.Unrolled unrolled names) (htied : dialect.grammar.Tied)
    (hsteady : dialect.grammar.Steady) (hkind : dialect.kind = .parser)
    (hpasses : ∀ q, 0 ≤ q → dialect.passes 0 q)
    (hoptions : ∀ name written, dialect.Defines name written → LacksOptions written.nodes)
    (hcommands : ∀ name ∈ names, ∀ written, dialect.Defines name written →
      LacksCommands written.nodes)
    (hrules : after.rules = unrolled.rules)
    (hsource : after.source.rules = unrolled.source.rules.map (demandAny names)) :
    dialect.Eliminates { dialect with grammar := after } dialect.grammar names := by
  have hdefines : ∀ name next, ({ dialect with grammar := after } : Dialect).Defines name next ↔
      (isTokenName name == (dialect.kind == .lexer)) = true ∧
        ((dialect.grammar.rule? name).map (·.defIndex)).bind
          (fun place => unrolled.source.rules[place]?.map (demandAny names)) = some next := by
    intro name next
    rw [Dialect.defines_iff]
    refine and_congr_right fun _ => ?_
    dsimp only
    rw [show after.rule? name = unrolled.rule? name from by unfold rule?; rw [hrules], h.rule?_eq, hsource]
    simp only [List.getElem?_map]
  have hforth : ∀ name written, dialect.Defines name written → ∃ next,
      ({ dialect with grammar := after } : Dialect).Defines name next ∧
        written.Becomes dialect.grammar names name next := by
    intro name written hwritten
    obtain ⟨rule, hrule, hdefinition⟩ := id hwritten
    rw [Dialect.rule?_eq] at hrule
    split at hrule
    · next hread =>
        by_cases hmem : name ∈ names
        · obtain ⟨next, hnext, hunrolls, hname⟩ := h.exists_next htied hmem hrule hdefinition
          refine ⟨_, (hdefines name _).mpr ⟨hread, ?_⟩, .loop hmem hname
            (hcommands name hmem written hwritten) hunrolls⟩
          rw [hrule, Option.map_some, Option.bind_some, hnext]
          rfl
        · refine ⟨_, (hdefines name _).mpr ⟨hread, ?_⟩, .kept hmem⟩
          have hplace : dialect.grammar.source.rules[rule.defIndex]? = some written := hdefinition
          rw [hrule, Option.map_some, Option.bind_some, h.others, hplace]
          · rfl
          · intro other hother r hr hplace
            have hsame : r = rule := List.inj_on_of_nodup_map htied.places
              (List.mem_of_find?_eq_some hr) (List.mem_of_find?_eq_some hrule) hplace
            exact hmem (name_of_rule? hrule ▸ hsame ▸ name_of_rule? hr ▸ hother)
    · cases hrule
  have hmissing : ∀ name, ({ dialect with grammar := after } : Dialect).rule? name = none ↔
      dialect.rule? name = none := by
    intro name
    rw [Dialect.rule?_eq, Dialect.rule?_eq]
    dsimp only
    split
    · have hplaces := h.rule?_eq name
      rw [show after.rule? name = unrolled.rule? name from by unfold rule?; rw [hrules],
        ← Option.map_eq_none_iff (f := (·.defIndex)), hplaces, Option.map_eq_none_iff]
    · exact Iff.rfl
  refine ⟨hkind, hkind, dialect.leafTexts_withGrammar after, hpasses, hmissing, hoptions, hforth,
    fun name next hnext => ?_⟩
  -- what is found afterwards stands for what was found
  obtain ⟨hread, hbind⟩ := (hdefines name next).mp hnext
  obtain ⟨place, hplace, -⟩ := Option.bind_eq_some_iff.mp hbind
  obtain ⟨rule, hrule, rfl⟩ := Option.map_eq_some_iff.mp hplace
  obtain ⟨written, hwritten⟩ := hsteady.definition (List.mem_of_find?_eq_some hrule)
  have hbefore : dialect.Defines name written :=
    ⟨rule, by rw [Dialect.rule?_eq, if_pos hread]; exact hrule, hwritten⟩
  obtain ⟨next', hnext', hbecomes⟩ := hforth name written hbefore
  exact ⟨written, hbefore, hnext.unique hnext' ▸ hbecomes⟩

/-- How the parser of a grammar understands it. A predicate about a precedence passes if the rule was
entered with no more. -/
def parserDialect (grammar : Grammar) (vocabulary : Vocabulary) : Dialect where
  grammar := grammar
  vocabulary := vocabulary
  kind := .parser
  passes := fun entry demanded => entry ≤ demanded

/-- The elimination of left recursion, if it reports no error, leaves loops in the place of left-recursive
rules that keep their names. -/
theorem eliminates_parserDialect {library : Library} {file source : String} {grammar : Grammar}
    {report : Report} (hgather : gather library file source = (some grammar, report))
    (himports : grammar.source.imports = [])
    (hoptions : ∀ rule ∈ grammar.source.rules, rule.isLexerRule = false → LacksOptions rule.nodes)
    (hcommands : ∀ rule ∈ grammar.source.rules, rule.isLexerRule = false → rule.isLeftRecursive = true →
      LacksCommands rule.nodes)
    (hnames : ∀ rule ∈ grammar.source.rules, rule.isLexerRule = false → rule.isLeftRecursive = true →
      rule.KeepsName)
    (hissues : AllWarnings (grammar.eliminate .standard).2.1) (vocabulary : Vocabulary) :
    (grammar.parserDialect vocabulary).Eliminates
      ((grammar.eliminate .standard).1.parserDialect vocabulary) grammar grammar.leftRecursiveRules := by
  obtain ⟨unrolled, hunrolled, heliminate⟩ := unrolled_eliminate hgather himports
    ⟨fun rule hrule hkind _ => (hoptions rule hrule hkind).unquotedIn _, hnames⟩ hissues
  rw [heliminate]
  refine Unrolled.eliminates (grammar.parserDialect vocabulary) hunrolled
    (tied_gather hgather) (steady_gather hgather) rfl (fun _ hq => hq) ?_ ?_ rfl rfl
  · intro name definition hdefines
    obtain ⟨r, hr, hdefinition⟩ := hdefines
    obtain ⟨hr, hkind⟩ := Option.filter_eq_some_iff.mp hr
    have hkind' := (steady_gather hgather).kinds r (List.mem_of_find?_eq_some hr) definition hdefinition
    exact hoptions definition (List.mem_of_getElem? hdefinition) (hkind'.trans (beq_iff_eq.mp hkind))
  · intro name hname definition hdefines
    obtain ⟨rule, written, hrule, hwritten, hkind, hrecursive⟩ :=
      (mem_leftRecursiveRules (nodup_gather hgather)).mp hname
    obtain rfl : definition = written := by
      obtain ⟨r, hr, hdefinition⟩ := hdefines
      obtain rfl := Option.some.inj ((Option.filter_eq_some_iff.mp hr).1.symm.trans hrule)
      exact Option.some.inj (hdefinition.symm.trans hwritten)
    have hkind' := (steady_gather hgather).kinds rule (List.mem_of_find?_eq_some hrule) definition
      hwritten
    exact hcommands definition (List.mem_of_getElem? hwritten) (hkind'.trans hkind) hrecursive

/-- The elimination of left recursion keeps the language of every parser rule, if it reports no error: the
rule derives the same texts in the grammar as it was written and, entered with the precedence 0, in the
new one. Left-recursive rules have to keep their names. -/
theorem eliminate_language {library : Library} {file source : String} {grammar : Grammar}
    {report : Report} (hgather : gather library file source = (some grammar, report))
    (himports : grammar.source.imports = [])
    (hoptions : ∀ rule ∈ grammar.source.rules, rule.isLexerRule = false → LacksOptions rule.nodes)
    (hcommands : ∀ rule ∈ grammar.source.rules, rule.isLexerRule = false → rule.isLeftRecursive = true →
      LacksCommands rule.nodes)
    (hnames : ∀ rule ∈ grammar.source.rules, rule.isLexerRule = false → rule.isLeftRecursive = true →
      rule.KeepsName)
    (hissues : AllWarnings (grammar.eliminate .standard).2.1) {rule : Rule}
    (hrule : rule ∈ grammar.parserRules) {written : RuleDef}
    (hwritten : grammar.definition? rule = some written) :
    ∃ rule' next, (grammar.eliminate .standard).1.rule? rule.name = some rule' ∧
      (grammar.eliminate .standard).1.definition? rule' = some next ∧
      ∀ vocabulary w, (grammar.parserDialect vocabulary).DerivesRule written 0 w ↔
        ((grammar.eliminate .standard).1.parserDialect vocabulary).DerivesRule next 0 w := by
  obtain ⟨hmem, hparser⟩ := List.mem_filter.mp hrule
  replace hparser : isTokenName rule.name = false := by simpa [Rule.isLexerRule] using hparser
  have heliminates := fun vocabulary =>
    eliminates_parserDialect hgather himports hoptions hcommands hnames hissues vocabulary
  have hdefines : ∀ vocabulary, (grammar.parserDialect vocabulary).Defines rule.name written := by
    intro vocabulary
    refine ⟨rule, ?_, hwritten⟩
    rw [Dialect.rule?_eq, if_pos (by rw [hparser]; rfl)]
    exact rule?_of_mem (nodup_gather hgather) hmem
  obtain ⟨next, ⟨rule', hrule', hnext⟩, -⟩ :=
    (heliminates .empty).forth rule.name written (hdefines .empty)
  obtain ⟨hfound, hkind⟩ := Option.filter_eq_some_iff.mp hrule'
  refine ⟨rule', next, hfound, hnext, fun vocabulary w => ?_⟩
  have hafter : ((grammar.eliminate .standard).1.parserDialect vocabulary).Defines rule.name next :=
    ⟨rule', Option.filter_eq_some_iff.mpr ⟨hfound, hkind⟩, hnext⟩
  rw [← (hdefines vocabulary).mem_textsOf, ← hafter.mem_textsOf, (heliminates vocabulary).textsOf_eq]

/-- Operators that are grouped to the left and to the right. -/
theorem exists_grouped : ∃ (grammar : Grammar) (report : Report) (rule : Rule) (written : RuleDef),
    gather .empty "T.g" "parser grammar T; e : e B e | <assoc=right> e C e | Y ; s : e ;" =
      (some grammar, report) ∧
    grammar.rule? "e" = some rule ∧ grammar.definition? rule = some written ∧
    grammar.source.imports = [] ∧ (∀ rule ∈ grammar.source.rules, LacksOptions rule.nodes) ∧
    (∀ rule ∈ grammar.source.rules, rule.isLeftRecursive = true → LacksCommands rule.nodes) ∧
    (∀ rule ∈ grammar.source.rules, rule.isLeftRecursive = true → rule.KeepsName) ∧
    AllWarnings (grammar.eliminate .standard).2.1 ∧ grammar.leftRecursiveRules = ["e"] := by
  have hgood : (gather .empty "T.g"
      "parser grammar T; e : e B e | <assoc=right> e C e | Y ; s : e ;").1.any
        fun grammar => (grammar.rule? "e").any fun rule => (grammar.definition? rule).any fun _ =>
      decide (grammar.source.imports = [] ∧
        (∀ rule ∈ grammar.source.rules, LacksOptions rule.nodes) ∧
        (∀ rule ∈ grammar.source.rules, rule.isLeftRecursive = true → LacksCommands rule.nodes) ∧
        (∀ rule ∈ grammar.source.rules, rule.isLeftRecursive = true → rule.KeepsName) ∧
        (∀ issue ∈ (grammar.eliminate .standard).2.1, issue.severity = .warning) ∧
        grammar.leftRecursiveRules = ["e"]) := by
    decide +kernel
  obtain ⟨grammar, report, hgather, hgood⟩ := exists_gather_of_any hgood
  obtain ⟨rule, hrule, hgood⟩ := (Option.any_eq_true _ _).mp hgood
  obtain ⟨written, hwritten, hgood⟩ := (Option.any_eq_true _ _).mp hgood
  obtain ⟨himports, hoptions, hcommands, hnames, hissues, hlist⟩ := of_decide_eq_true hgood
  exact ⟨grammar, report, rule, written, hgather, hrule, hwritten, himports, hoptions, hcommands, hnames,
    hissues, hlist⟩

/-- Every text stays a text of the rule of the operators. -/
theorem eliminate_language_grouped :
    ∃ (grammar : Grammar) (report : Report) (rule : Rule) (written : RuleDef),
      gather .empty "T.g" "parser grammar T; e : e B e | <assoc=right> e C e | Y ; s : e ;" =
        (some grammar, report) ∧
      grammar.rule? "e" = some rule ∧ grammar.definition? rule = some written ∧
      grammar.leftRecursiveRules = ["e"] ∧
      ∃ rule' next, (grammar.eliminate .standard).1.rule? "e" = some rule' ∧
        (grammar.eliminate .standard).1.definition? rule' = some next ∧
        ∀ vocabulary w, (grammar.parserDialect vocabulary).DerivesRule written 0 w ↔
          ((grammar.eliminate .standard).1.parserDialect vocabulary).DerivesRule next 0 w := by
  obtain ⟨grammar, report, rule, written, hgather, hrule, hwritten, himports, hoptions, hcommands, hnames,
    hissues, hlist⟩ := exists_grouped
  refine ⟨grammar, report, rule, written, hgather, hrule, hwritten, hlist, ?_⟩
  have hname : rule.name = "e" := name_of_rule? hrule
  have hparser : rule ∈ grammar.parserRules := by
    refine List.mem_filter.mpr ⟨List.mem_of_find?_eq_some hrule, ?_⟩
    rw [Rule.isLexerRule, hname]
    decide
  rw [← hname]
  exact eliminate_language hgather himports (fun rule hrule _ => hoptions rule hrule)
    (fun rule hrule _ => hcommands rule hrule) (fun rule hrule _ => hnames rule hrule) hissues hparser
    hwritten

end Grammar

end GrammarCompiler
