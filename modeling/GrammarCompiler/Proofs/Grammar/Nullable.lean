import GrammarCompiler.Proofs.Grammar.Derives
import GrammarCompiler.Proofs.Grammar.Lexical

/-!
# Token rules that match nothing

`Grammar.Nullable` says which elements of token rules can match the empty text, by the elements alone.
It is a least fixed point: a rule that comes back to itself before it has read anything is not nullable
on that account. For the token rules of a grammar that is complete these are the elements that derive
the empty text (`DerivesRule.nil_iff`).

In one direction this is an induction on the derivation, in the other one on why an element is nullable.
-/

namespace GrammarCompiler

open Network (precedenceIn?)

namespace Grammar

/-- Elements of token rules that can match the empty text. What is optional or repeated can be left
out, what comes at least once is nullable if one round of it is, and a name if one of the alternatives
of its rule is. Actions, predicates and commands read nothing; literals, ranges, wildcards, sets and
negations always read something. -/
inductive Nullable (grammar : Grammar) : Element → Prop
  | action (code : Snippet) : Nullable grammar (.action code)
  | predicate (code : Snippet) : Nullable grammar (.predicate code)
  | command (name : String) (arg : Option String) (extent : Extent) :
    Nullable grammar (.command name arg extent)
  | epsilon (extent : Extent) : Nullable grammar (.epsilon extent)
  | labeled {isList : Bool} {label : String} {labelToken : Nat} {inner : Element} {extent : Extent} :
    Nullable grammar inner → Nullable grammar (.labeled isList label labelToken inner extent)
  | skipped {suffix : Suffix} {greedy : Bool} {inner : Element} {extent : Extent} :
    suffix ≠ .positiveClosure → Nullable grammar (.suffixed suffix greedy inner extent)
  | repeated {greedy : Bool} {inner : Element} {extent : Extent} : Nullable grammar inner →
    Nullable grammar (.suffixed .positiveClosure greedy inner extent)
  | block {alts : List Alt} {options : Options} {extent : Extent} {alt : Alt} : alt ∈ alts →
    (∀ e ∈ alt.elements, Nullable grammar e) → Nullable grammar (.block alts options extent)
  | reference {e : Element} {name : String} {rule : Rule} {definition : RuleDef} {alt : Alt} :
    e.refName? true = some name → grammar.rule? name = some rule →
    grammar.definition? rule = some definition → alt ∈ definition.alts →
    (∀ part ∈ alt.elements, Nullable grammar part) → Nullable grammar e

/-- Whether a token rule can match the empty text: all elements of one of its alternatives can. -/
def NullableRule (grammar : Grammar) (rule : Rule) : Prop :=
  ∃ definition, grammar.definition? rule = some definition ∧
    ∃ alt ∈ definition.alts, ∀ e ∈ alt.elements, grammar.Nullable e

end Grammar

/-! ## Parts of elements -/

theorem Element.nodes_subset_of_mem {e : Element} {es : List Element} (h : e ∈ es) :
    e.nodes ⊆ Element.listNodes es := by
  induction es with
  | nil => cases h
  | cons first es ih =>
      rcases List.mem_cons.mp h with rfl | h
      · exact List.subset_append_left ..
      · exact List.Subset.trans (ih h) (List.subset_append_right ..)

/-- A grammar has what is needed to tell whether elements of token rules are nullable: their literals
are not empty, and their names are those of token rules. -/
structure Grammar.Supplies (grammar : Grammar) (nodes : List Element) : Prop where
  literals : "" ∉ nodes.filterMap Element.literal?
  references : ∀ name ∈ nodes.filterMap (Element.refName? true),
    ∃ callee ∈ grammar.lexerRules, callee.name = name

section Lexer

variable {grammar : Grammar}

theorem Grammar.Supplies.mono {nodes others : List Element} (h : grammar.Supplies others)
    (hsub : nodes ⊆ others) : grammar.Supplies nodes := by
  refine ⟨fun hmem => h.literals ?_, fun name hmem => h.references name ?_⟩
  · obtain ⟨e, he, hliteral⟩ := List.mem_filterMap.mp hmem
    exact List.mem_filterMap.mpr ⟨e, hsub he, hliteral⟩
  · obtain ⟨e, he, hname⟩ := List.mem_filterMap.mp hmem
    exact List.mem_filterMap.mpr ⟨e, hsub he, hname⟩

theorem Grammar.Supplies.tail {e : Element} {nodes : List Element} (h : grammar.Supplies (e :: nodes)) :
    grammar.Supplies nodes :=
  h.mono (List.subset_cons_self e nodes)

theorem Grammar.Supplies.append {nodes others : List Element} (h : grammar.Supplies (nodes ++ others)) :
    grammar.Supplies nodes ∧ grammar.Supplies others :=
  ⟨h.mono (List.subset_append_left ..), h.mono (List.subset_append_right ..)⟩

theorem Grammar.Lexical.supplies (h : grammar.Lexical) {rule : Rule} (hrule : rule ∈ grammar.lexerRules)
    {definition : RuleDef} (hdefinition : grammar.definition? rule = some definition) {alt : Alt}
    (halt : alt ∈ definition.alts) : grammar.Supplies (Element.listNodes alt.elements) :=
  Grammar.Supplies.mono
    ⟨h.literals rule hrule definition hdefinition, h.references rule hrule definition hdefinition⟩
    (Alt.nodes_subset_of_mem halt)

namespace Dialect

variable {dialect : Dialect} {entry : Int} {row : List Element} {e : Element} {w : List Int}

/-- How a grammar is understood by its lexer, where all predicates pass. -/
structure IsLexer (dialect : Dialect) (grammar : Grammar) : Prop where
  grammar : dialect.grammar = grammar
  kind : dialect.kind = .lexer
  passes : ∀ entry demanded, dialect.passes entry demanded

theorem refName?_eq_calls? (e : Element) : e.refName? true = (calls? .lexer e).map (·.1) := by
  cases e <;> rfl

theorem IsLexer.defines_iff (h : dialect.IsLexer grammar) {name : String} {definition : RuleDef} :
    dialect.Defines name definition ↔ ∃ rule, grammar.rule? name = some rule ∧
      rule.isLexerRule = true ∧ grammar.definition? rule = some definition := by
  unfold Defines rule?
  rw [h.grammar, h.kind]
  constructor
  · rintro ⟨rule, hrule, hdefinition⟩
    obtain ⟨hname, hlexer⟩ := Option.filter_eq_some_iff.mp hrule
    exact ⟨rule, hname, beq_iff_eq.mp hlexer, hdefinition⟩
  · rintro ⟨rule, hname, hlexer, hdefinition⟩
    exact ⟨rule, Option.filter_eq_some_iff.mpr ⟨hname, beq_iff_eq.mpr hlexer⟩, hdefinition⟩

/-! ## Derivations of the empty text -/

/-- What derives the empty text is nullable. -/
theorem Derives.nullable (h : dialect.Derives entry row w) (hdialect : dialect.IsLexer grammar)
    (hlexical : grammar.Lexical) (hsupplies : grammar.Supplies (Element.listNodes row)) (hw : w = []) :
    ∀ e ∈ row, grammar.Nullable e := by
  induction h with
  | done => exact nofun
  | symbol => cases hw
  | @word _ literal _ _ _ _ ih =>
      -- a literal that is read as a word has characters
      have hempty : literal.value = "" :=
        String.toList_eq_nil_iff.mp (List.map_eq_nil_iff.mp (List.append_eq_nil_iff.mp hw).1)
      exact absurd (List.mem_cons.mpr (Or.inl hempty.symm)) hsupplies.literals
  | call hcalls hdefines halt _ _ ihbody ihrest =>
      obtain ⟨hu, hw⟩ := List.append_eq_nil_iff.mp hw
      obtain ⟨rule, hname, hlexer, hdefinition⟩ := hdialect.defines_iff.mp hdefines
      have hrule : rule ∈ grammar.lexerRules :=
        List.mem_filter.mpr ⟨List.mem_of_find?_eq_some hname, hlexer⟩
      refine List.forall_mem_cons.mpr ⟨?_, ihrest hsupplies.append.2 hw⟩
      refine .reference ?_ hname hdefinition halt
        (ihbody (hlexical.supplies hrule hdefinition halt) hu)
      rw [refName?_eq_calls?, ← hdialect.kind, hcalls]
      rfl
  | empty hempty _ ih =>
      refine List.forall_mem_cons.mpr ⟨?_, ih hsupplies.append.2 hw⟩
      cases hempty with
      | action code => exact .action code
      | predicate => exact .predicate _
      | command name arg extent => exact .command name arg extent
      | epsilon extent => exact .epsilon extent
  | precedence _ _ _ ih =>
      exact List.forall_mem_cons.mpr ⟨.predicate _, ih hsupplies.append.2 hw⟩
  | labeled _ ih =>
      obtain ⟨hinner, hrest⟩ := List.forall_mem_cons.mp (ih hsupplies.tail hw)
      exact List.forall_mem_cons.mpr ⟨.labeled hinner, hrest⟩
  | @block _ alts options extent alt row _ halt _ ih =>
      have hsub : Element.listNodes (alt.elements ++ row) ⊆
          Alt.listNodes alts ++ Element.listNodes row := by
        rw [Element.listNodes_append]
        exact List.append_subset.mpr
          ⟨List.Subset.trans (Alt.nodes_subset_of_mem halt) (List.subset_append_left ..),
            List.subset_append_right ..⟩
      have hall := ih (hsupplies.tail.mono hsub) hw
      refine List.forall_mem_cons.mpr ⟨.block halt fun e he => ?_, fun e he => ?_⟩
      · exact hall e (List.mem_append_left _ he)
      · exact hall e (List.mem_append_right _ he)
  | skip hsuffix _ ih =>
      exact List.forall_mem_cons.mpr ⟨.skipped hsuffix, ih hsupplies.append.2 hw⟩
  | @once _ suffix _ _ _ _ _ _ ih =>
      obtain ⟨hinner, hrest⟩ := List.forall_mem_cons.mp (ih hsupplies.tail hw)
      refine List.forall_mem_cons.mpr ⟨?_, hrest⟩
      by_cases hsuffix : suffix = .positiveClosure
      · exact hsuffix ▸ .repeated hinner
      · exact .skipped hsuffix
  | @again _ suffix greedy inner extent row _ _ _ ih =>
      have hsub : Element.listNodes (inner :: .suffixed suffix greedy inner extent :: row) ⊆
          Element.listNodes (.suffixed suffix greedy inner extent :: row) :=
        List.append_subset.mpr ⟨fun node hnode =>
          List.mem_cons_of_mem _ (List.mem_append_left _ hnode), fun node hnode => hnode⟩
      exact (List.forall_mem_cons.mp (ih (hsupplies.mono hsub) hw)).2

/-- Elements that may all be put in front of a row may be put there together. -/
theorem Derives.prepend {es : List Element}
    (h : ∀ e ∈ es, ∀ {row : List Element} {w : List Int}, dialect.Derives entry row w →
      dialect.Derives entry (e :: row) w) (hrow : dialect.Derives entry row w) :
    dialect.Derives entry (es ++ row) w := by
  induction es with
  | nil => exact hrow
  | cons e es ih =>
      obtain ⟨he, hes⟩ := List.forall_mem_cons.mp h
      exact he (ih hes)

/-- A nullable element may stand in front of any row. -/
theorem derives_cons_of_nullable (h : grammar.Nullable e) (hdialect : dialect.IsLexer grammar)
    (hlexical : grammar.Lexical) (hsupplies : grammar.Supplies e.nodes) :
    ∀ {entry : Int} {row : List Element} {w : List Int}, dialect.Derives entry row w →
      dialect.Derives entry (e :: row) w := by
  induction h with
  | action code => exact .empty (.action code)
  | predicate code =>
      intro entry row w hrow
      cases hprecedence : precedenceIn? code.options with
      | none => exact .empty (.predicate hprecedence) hrow
      | some demanded => exact .precedence hprecedence (hdialect.passes entry demanded) hrow
  | command name arg extent => exact .empty (.command name arg extent)
  | epsilon extent => exact .empty (.epsilon extent)
  | labeled _ ih => exact fun hrow => .labeled (ih hsupplies.tail hrow)
  | skipped hsuffix => exact .skip hsuffix
  | repeated _ ih => exact fun hrow => .once (ih hsupplies.tail hrow)
  | @block alts options extent alt halt _ ih =>
      refine fun hrow => .block halt (Derives.prepend (fun e he => ?_) hrow)
      exact ih e he (hsupplies.tail.mono
        (List.Subset.trans (Element.nodes_subset_of_mem he) (Alt.nodes_subset_of_mem halt)))
  | @reference e name rule definition alt hname hrule hdefinition halt _ ih =>
      intro entry row w hrow
      obtain ⟨callee, hcallee, hcalleeName⟩ :=
        hsupplies.references name (List.mem_filterMap.mpr ⟨e, mem_nodes_self e, hname⟩)
      obtain ⟨other, hother, hlexer⟩ := Grammar.exists_rule?_of_lexer hcallee
      obtain rfl : other = rule := by
        rw [hcalleeName, hrule, Option.some.injEq] at hother
        exact hother.symm
      have hmem : other ∈ grammar.lexerRules :=
        List.mem_filter.mpr ⟨List.mem_of_find?_eq_some hrule, hlexer⟩
      rw [refName?_eq_calls?, ← hdialect.kind] at hname
      obtain ⟨⟨name', precedence⟩, hcalls, rfl⟩ := Option.map_eq_some_iff.mp hname
      have hbody : dialect.Derives precedence (alt.elements ++ []) [] :=
        Derives.prepend (fun part hpart => ih part hpart
          ((hlexical.supplies hmem hdefinition halt).mono (Element.nodes_subset_of_mem hpart)))
          (.done precedence)
      rw [List.append_nil] at hbody
      exact .call hcalls (hdialect.defines_iff.mpr ⟨other, hrule, hlexer, hdefinition⟩) halt hbody hrow

/-- A token rule derives the empty text just if it is nullable. -/
theorem DerivesRule.nil_iff (hdialect : dialect.IsLexer grammar) (hlexical : grammar.Lexical)
    {rule : Rule} (hrule : rule ∈ grammar.lexerRules) {definition : RuleDef}
    (hdefinition : grammar.definition? rule = some definition) (entry : Int) :
    dialect.DerivesRule definition entry [] ↔ grammar.NullableRule rule := by
  constructor
  · rintro ⟨alt, halt, hderives⟩
    exact ⟨definition, hdefinition, alt, halt,
      hderives.nullable hdialect hlexical (hlexical.supplies hrule hdefinition halt) rfl⟩
  · rintro ⟨other, hother, alt, halt, hnullable⟩
    obtain rfl := Option.some.inj (hother.symm.trans hdefinition)
    have hderives : dialect.Derives entry (alt.elements ++ []) [] :=
      Derives.prepend (fun e he => derives_cons_of_nullable (hnullable e he) hdialect hlexical
        ((hlexical.supplies hrule hdefinition halt).mono (Element.nodes_subset_of_mem he))) (.done entry)
    rw [List.append_nil] at hderives
    exact ⟨alt, halt, hderives⟩

end Dialect

end Lexer

end GrammarCompiler
