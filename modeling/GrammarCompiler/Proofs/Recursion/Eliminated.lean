import GrammarCompiler.Proofs.Grammar.Lexical
import GrammarCompiler.Proofs.Grammar.Replaced
import GrammarCompiler.Proofs.Recursion.Carried

/-!
# What the elimination of left recursion makes of a grammar

Rules are replaced one after another, and no replacement touches another rule or the tokens that are
there (`Grammar.Unrolled`). So if nothing goes wrong and no rule loses its name, every left-recursive
rule of the grammar as it was collected has given way to a loop that is told by the rule itself
(`Grammar.Unrolls`), and every other definition is what it was (`Grammar.unrolled_eliminate`).
-/

namespace GrammarCompiler

/-! ## Tokens that are added -/

theorem TokenTable.Extends.slice {after before : TokenTable} (h : after.Extends before) {start stop : Nat}
    (hstop : stop ≤ before.size) : after.slice start stop = before.slice start stop := by
  obtain ⟨rest, hrest⟩ := h.tokens
  unfold TokenTable.slice
  rw [← hrest, List.take_append_of_le_length (by simpa [TokenTable.size] using hstop)]

/-- An alternative stands where it stood after tokens have been added. -/
theorem Alt.Stands.extends {after before : TokenTable} {alt : Alt} {i : Nat} {ts : List TokenTree}
    (h : alt.Stands before i ts) (hextends : after.Extends before) : alt.Stands after i ts := by
  refine ⟨h.spelled, h.proper, ?_⟩
  have hstanding := h.standing
  have hlength := hstanding.numbered.length_eq
  rcases Nat.eq_zero_or_pos (TokenTree.widths ts) with hzero | hpos
  · rw [hzero, Nat.add_zero, TokenTable.slice_self] at hstanding ⊢
    exact hstanding
  · rwa [hextends.slice]
    unfold TokenTable.slice at hlength
    rw [List.length_drop, List.length_take, Array.length_toList] at hlength
    unfold TokenTable.size
    omega

theorem RuleDef.Stands.extends {after before : TokenTable} {rule : RuleDef} (h : rule.Stands before)
    (hextends : after.Extends before) : rule.Stands after :=
  ⟨h.name, h.arguments, h.results, fun alt halt =>
    let ⟨i, ts, hstands⟩ := h.alts alt halt
    ⟨i, ts, hstands.extends hextends⟩⟩

/-! ## The loop that stands for a rule -/

namespace LeftRecursion

theorem allUnplaced_pointAlts (places : List Nat) (alts : List Alt) :
    Alt.allUnplaced (pointAlts places alts) = Alt.allUnplaced alts := by
  unfold Alt.allUnplaced pointAlts
  rw [Alt.allRecast_eq_map, Alt.allRecast_eq_map, List.mapIdx_eq_zipIdx_map, List.map_map]
  conv_rhs => rw [← List.zipIdx_map_fst 0 alts, List.map_map]
  refine List.map_congr_left fun alt _ => ?_
  obtain ⟨⟨elements, options, label, extent, info⟩, i⟩ := alt
  dsimp only [Function.comp]
  split <;> rfl

theorem primary_link (lr : LeftRecursion) (rule : RuleDef) : (lr.link rule).1.primary = lr.primary := by
  have hprimary : ∀ (lr : LeftRecursion) (e : Element), (lr.linkPrimary e).1.primary = lr.primary := by
    intro lr e
    unfold linkPrimary
    split <;> rfl
  have hoperators : ∀ (lr : LeftRecursion) (e : Element),
      (lr.linkOperators e).1.primary = lr.primary := by
    intro lr e
    unfold linkOperators
    split <;> rfl
  unfold link
  split
  · rfl
  · next main others _ =>
    show (lr.linkElements main.elements).1.primary = lr.primary
    unfold linkElements
    split
    · rfl
    · exact hprimary lr _
    · exact (hoperators _ _).trans (hprimary lr _)

end LeftRecursion

namespace RuleDef

def primaryNumbers (rule : RuleDef) : List Nat :=
  rule.numbersOf (!·.isOperator)

def operatorNumbers (rule : RuleDef) : List Nat :=
  rule.numbersOf (· == .binary) ++ rule.numbersOf (· == .ternary) ++ rule.numbersOf (· == .suffix)

theorem exists_of_mem_primaryNumbers {rule : RuleDef} {num : Nat} (h : num ∈ rule.primaryNumbers) :
    ∃ origin shape, rule.HandsOver num origin shape ∧ shape.isOperator = false := by
  obtain ⟨origin, shape, hover, hshape⟩ := exists_handsOver h
  exact ⟨origin, shape, hover, by simpa using hshape⟩

theorem exists_of_mem_operatorNumbers {rule : RuleDef} {num : Nat} (h : num ∈ rule.operatorNumbers) :
    ∃ origin shape, rule.HandsOver num origin shape ∧ shape.isOperator = true := by
  have hshape : ∀ shape : AltShape, shape.isOperator = true → num ∈ rule.numbersOf (· == shape) →
      ∃ origin shape, rule.HandsOver num origin shape ∧ shape.isOperator = true := by
    intro shape hoperator hnum
    obtain ⟨origin, found, hover, hsame⟩ := exists_handsOver hnum
    obtain rfl : found = shape := by simpa using hsame
    exact ⟨origin, found, hover, hoperator⟩
  rcases List.mem_append.mp h with h | h
  · rcases List.mem_append.mp h with h | h
    · exact hshape .binary rfl h
    · exact hshape .ternary rfl h
  · exact hshape .suffix rfl h

/-- Whether a rule keeps its name when it is written out: the mark of helper rules is not read as the
mark of a rule that is named by the word of its results. -/
def KeepsName (rule : RuleDef) : Prop :=
  ¬(rule.name = "fragment" ∧ rule.args = none ∧ rule.returns.isSome)

instance (rule : RuleDef) : Decidable rule.KeepsName :=
  inferInstanceAs (Decidable (¬_))

end RuleDef

/-- Rows, the first of which begins with the empty action, even if there is none. -/
def withAction : List (List Element) → List (List Element)
  | [] => [[emptyAction]]
  | row :: rows => (emptyAction :: row) :: rows

theorem map_elements_withAction (pieces : List Piece) :
    (Piece.withAction pieces).map (·.elements) = withAction (pieces.map (·.elements)) := by
  cases pieces <;> rfl

namespace RuleDef

/-- A loop whose elements have got other options is one still, and so are its blocks. -/
theorem IsLoop.mapOptions {rule : RuleDef} (h : rule.IsLoop) (f : Unit → Element → Unit × Options) :
    (rule.mapOptions f ()).2.IsLoop ∧
      (rule.mapOptions f ()).2.primaryBlock = (Alt.mapListOptions f () rule.primaryBlock).2 ∧
      (rule.mapOptions f ()).2.operatorBlock = (Alt.mapListOptions f () rule.operatorBlock).2 := by
  obtain ⟨name, nameToken, isFragment, args, returns, ⟨alts, blockExtent⟩, extent⟩ := rule
  obtain ⟨block, options, inner, loop, options', label, outer, info, halts, hloop⟩ := h
  obtain rfl : alts = _ := halts
  rcases hloop with rfl | ⟨greedy, ops, options'', inner', outer', rfl⟩
  · exact ⟨⟨_, _, _, _, _, _, _, _, rfl, .inl rfl⟩, rfl, rfl⟩
  · exact ⟨⟨_, _, _, _, _, _, _, _, rfl, .inr ⟨_, _, _, _, _, rfl⟩⟩, rfl, rfl⟩

end RuleDef

theorem Alt.mapListOptions_eq_map (f : Unit → Element → Unit × Options) (as : List Alt) :
    (Alt.mapListOptions f () as).2 = as.map fun a => (a.mapOptions f ()).2 := by
  induction as with
  | nil => rfl
  | cons a as ih => exact congrArg (_ :: ·) ih

namespace Grammar

/-- The elements of the primary alternatives in the new rule. -/
def primaryRows (grammar : Grammar) (rule : RuleDef) : List (List Element) :=
  withAction (rule.primaryNumbers.map (grammar.rebuilt rule))

def operatorRows (grammar : Grammar) (rule : RuleDef) : List (List Element) :=
  rule.operatorNumbers.map fun num =>
    guardElement (precedenceOf rule.alts.length num) :: grammar.rebuilt rule num

/-- Whether a rule is the loop that stands for another one. -/
structure Unrolls (grammar : Grammar) (written next : RuleDef) : Prop where
  name : next.name = written.name
  once : (written.primaryNumbers ++ written.operatorNumbers).Perm (List.range' 1 written.alts.length)
  nonempty : written.primaryNumbers ≠ []
  loop : next.IsLoop
  primary : Alt.allUnplaced next.primaryBlock = (grammar.primaryRows written).map Alt.ofElements
  operators : Alt.allUnplaced next.operatorBlock = (grammar.operatorRows written).map Alt.ofElements

theorem assocOf_fst (grammar other : Grammar) (alt : Alt) :
    (grammar.assocOf alt).1 = (other.assocOf alt).1 := by
  unfold assocOf
  split <;> rfl

/-- What stands for an alternative is told by the alternative and its number alone. -/
theorem rebuilt_eq (grammar other : Grammar) : grammar.rebuilt = other.rebuilt := by
  funext rule num
  unfold rebuilt
  simp only [grammar.assocOf_fst other]

theorem Unrolls.of_grammar {grammar : Grammar} {written next : RuleDef} (h : grammar.Unrolls written next)
    (other : Grammar) : other.Unrolls written next := by
  refine ⟨h.name, h.once, h.nonempty, h.loop, ?_, ?_⟩
  · have hprimary := h.primary
    unfold primaryRows at hprimary ⊢
    rwa [other.rebuilt_eq grammar]
  · have hoperators := h.operators
    unfold operatorRows at hoperators ⊢
    rwa [other.rebuilt_eq grammar]

section Views

variable {α : Type} {view : Element → Option α} {grammar : Grammar} {written next : RuleDef}
  (h : grammar.Unrolls written next) (hview : ∀ e : Element, view e.unplaced = view e)

include h hview

/-- What is read off the primary alternatives of the new rule. -/
theorem Unrolls.views_primary (haction : ∀ code, view (.action code) = none) :
    next.primaryBlock.map (·.views view) = written.primaryNumbers.map fun num =>
      (Element.listNodes (grammar.rebuilt written num)).filterMap view := by
  rw [← Alt.views_unplaced hview, h.primary, List.map_map, primaryRows]
  have hnonempty := h.nonempty
  cases hnumbers : written.primaryNumbers with
  | nil => exact absurd hnumbers hnonempty
  | cons num nums =>
      rw [List.map_cons, withAction, List.map_cons, List.map_cons, List.map_map]
      exact congrArg (· :: _) (List.filterMap_cons_none (haction _))

/-- What is read off the operators of the new rule. -/
theorem Unrolls.views_operators (hpredicate : ∀ code, view (.predicate code) = none) :
    next.operatorBlock.map (·.views view) = written.operatorNumbers.map fun num =>
      (Element.listNodes (grammar.rebuilt written num)).filterMap view := by
  rw [← Alt.views_unplaced hview, h.operators, List.map_map, operatorRows, List.map_map]
  exact List.map_congr_left fun num _ => List.filterMap_cons_none (hpredicate _)

end Views

/-! ## Replacing one rule -/

/-- A rule that has been replaced by what was read from its new text is a loop. -/
theorem Rewrites.unrolls {grammar : Grammar} {name : String} {rule : Rule} {written parsed : RuleDef}
    {analysis : RuleAnalysis} (h : grammar.Rewrites name rule written analysis parsed)
    (hstands : written.Stands grammar.tokens) (hnonempty : written.primaryNumbers ≠ [])
    (hname : (analysis.linked rule written parsed).2.name = written.name) :
    grammar.Unrolls written (analysis.linked rule written parsed).2 := by
  obtain ⟨-, -, hloop, hprimary, hoperators⟩ := h.linked hstands
  obtain ⟨-, hprimary', hoperators'⟩ :=
    RuleDef.isLoop_of_unplaced (unplaced_of_parse hstands h.tells h.parse)
  refine ⟨hname, perm_nums h.tells, hnonempty, hloop, ?_, ?_⟩
  · rw [hprimary, LeftRecursion.allUnplaced_pointAlts, hprimary', primaryRows, RuleDef.primaryNumbers,
      ← nums_primary h.tells, List.map_map]
    have hrows := map_elements_withAction (analysis.primary.map (grammar.piece written))
    rw [List.map_map] at hrows
    rw [show (grammar.rebuilt written ∘ fun info : AltInfo => info.alt) =
      (fun piece : Piece => piece.elements) ∘ grammar.piece written from rfl, ← hrows, List.map_map]
    rfl
  · rw [hoperators, LeftRecursion.allUnplaced_pointAlts, hoperators', operatorRows, RuleDef.operatorNumbers,
      ← nums_operators h.tells, List.map_map, List.map_map, List.map_map]
    rfl

/-- A rule that is replaced without errors is replaced, and has a primary alternative. -/
theorem replaceRule_of_allWarnings {grammar : Grammar} {layout : Layout} {name : String} {rule : Rule}
    {written : RuleDef} (hrule : grammar.rule? name = some rule)
    (hwritten : grammar.definition? rule = some written)
    (hissues : AllWarnings (grammar.replaceRule layout name).issues) :
    (grammar.replaceRule layout name).done = true ∧ written.primaryNumbers ≠ [] := by
  unfold replaceRule at hissues ⊢
  rw [hrule] at hissues ⊢
  dsimp only at hissues ⊢
  rw [hwritten] at hissues ⊢
  dsimp only at hissues ⊢
  split at hissues
  · have hsevere := hissues.append.2 _ (List.mem_singleton_self _)
    cases hsevere
  next issues analysis hanalyze =>
  unfold replaceAnalyzed at hissues ⊢
  dsimp only at hissues ⊢
  split at hissues
  · have hsevere := hissues.append.2 _ (List.mem_singleton_self _)
    cases hsevere
  next definition hparse =>
  refine ⟨rfl, fun hnil => ?_⟩
  have hnums := nums_primary (analyze_eq_ok hanalyze)
  rw [show written.numbersOf (!·.isOperator) = [] from hnil, List.map_eq_nil_iff] at hnums
  have hlinked := (LeftRecursion.ofInfos analysis.primary analysis.operators analysis.refLabels
    written.alts).primary_link { definition with nameToken := rule.nameToken }
  -- a rule without primary alternatives is reported
  unfold replaceBy at hissues
  dsimp only at hissues
  rw [hlinked, show (LeftRecursion.ofInfos analysis.primary analysis.operators analysis.refLabels
    written.alts).primary = [] by rw [hnums]; rfl] at hissues
  have hsevere := hissues.append.2.append.2 _ (List.mem_singleton_self _)
  cases hsevere

/-- A rule that is replaced without errors gives way to the loop that stands for it. -/
theorem replaceRule_unrolls {grammar : Grammar} (hbuilt : grammar.Built) {name : String} {rule : Rule}
    {written : RuleDef} (hrule : grammar.rule? name = some rule)
    (hwritten : grammar.definition? rule = some written) (hstands : written.Stands grammar.tokens)
    (hkeeps : written.KeepsName)
    (hissues : AllWarnings (grammar.replaceRule .standard name).issues) :
    ∃ next definition, (grammar.replaceRule .standard name).grammar =
        (grammar.withTokens (grammar.replaceRule .standard name).grammar.tokens).withRule rule next
          definition ∧
      next.StandsFor rule definition ∧ next.name = name ∧ grammar.Unrolls written definition := by
  obtain ⟨hdone, hnonempty⟩ := replaceRule_of_allWarnings hrule hwritten hissues
  obtain ⟨rule', written', next, definition, hrule', hwritten', hafter, hstandsFor, hname⟩ :=
    withRule_of_done hbuilt hdone
  obtain rfl : rule = rule' := Option.some.inj (hrule.symm.trans hrule')
  obtain rfl : written = written' := Option.some.inj (hwritten.symm.trans hwritten')
  have hnamed : written.name = name :=
    (hbuilt.tied.names rule (List.mem_of_find?_eq_some hrule) written hwritten).1.trans
      (name_of_rule? hrule)
  rw [if_neg (hnamed ▸ hkeeps)] at hname
  obtain ⟨analysis, parsed, hrewrites⟩ := rewrites_of_done hrule hwritten hdone
  have hdefinition : definition = (analysis.linked rule written parsed).2 := by
    have hplace : rule.defIndex < grammar.source.rules.length :=
      (List.getElem?_eq_some_iff.mp hwritten).1
    have hget := hrewrites.definition
    rw [hafter] at hget
    exact Option.some.inj ((List.getElem?_set_self hplace).symm.trans hget)
  refine ⟨next, definition, hafter, hstandsFor, hname, ?_⟩
  subst hdefinition
  exact hrewrites.unrolls hstands hnonempty (hstandsFor.name.symm.trans (hname.trans hnamed.symm))

/-! ## Replacing rules one after another -/

/-- What is left of a grammar, and what has taken the place of the rest, once the rules of some names
have been replaced. -/
structure Unrolled (before after : Grammar) (names : List String) : Prop where
  built : after.Built
  tokens : after.tokens.Extends before.tokens
  /-- The rules have the names and the definitions' places that they had. -/
  rules : after.rules.map (fun rule => (rule.name, rule.defIndex)) =
    before.rules.map fun rule => (rule.name, rule.defIndex)
  others : ∀ place, (∀ name ∈ names, ∀ rule, before.rule? name = some rule → rule.defIndex ≠ place) →
    after.source.rules[place]? = before.source.rules[place]?
  loops : ∀ name ∈ names, ∀ rule written, before.rule? name = some rule →
    before.definition? rule = some written →
      ∃ next, after.source.rules[rule.defIndex]? = some next ∧ before.Unrolls written next

/-- Rules are found at the places where they were. -/
theorem Unrolled.rule?_eq {before after : Grammar} {names : List String}
    (h : before.Unrolled after names) (name : String) :
    (after.rule? name).map (·.defIndex) = (before.rule? name).map (·.defIndex) := by
  have hfind : ∀ grammar : Grammar, (grammar.rule? name).map (fun rule => (rule.name, rule.defIndex)) =
      (grammar.rules.map fun rule => (rule.name, rule.defIndex)).find? (·.1 == name) := by
    intro grammar
    rw [List.find?_map]
    rfl
  have hsame := congrArg (Option.map Prod.snd)
    ((hfind after).trans ((congrArg _ h.rules).trans (hfind before).symm))
  rwa [Option.map_map, Option.map_map] at hsame

theorem Unrolled.refl {grammar : Grammar} (hbuilt : grammar.Built) : grammar.Unrolled grammar [] :=
  ⟨hbuilt, .refl _, rfl, fun _ _ => rfl, nofun⟩

/-- One more rule is replaced. -/
theorem Unrolled.replaceRule {before after : Grammar} {names : List String} {name : String}
    (h : before.Unrolled after names) (htied : before.Tied) (hnew : name ∉ names) {rule : Rule}
    {written : RuleDef} (hrule : before.rule? name = some rule)
    (hwritten : before.definition? rule = some written) (hstands : written.Stands before.tokens)
    (hkeeps : written.KeepsName)
    (hissues : AllWarnings (after.replaceRule .standard name).issues) :
    before.Unrolled (after.replaceRule .standard name).grammar (names ++ [name]) ∧
      (after.replaceRule .standard name).done = true := by
  -- no other rule has the definition of this one
  have hplaces : ∀ other ∈ names, ∀ r, before.rule? other = some r → r.defIndex ≠ rule.defIndex := by
    intro other hother r hr hplace
    have hsame : r = rule := List.inj_on_of_nodup_map htied.places (List.mem_of_find?_eq_some hr)
      (List.mem_of_find?_eq_some hrule) hplace
    exact hnew (name_of_rule? hrule ▸ hsame ▸ name_of_rule? hr ▸ hother)
  obtain ⟨now, hnow, hplace⟩ : ∃ now, after.rule? name = some now ∧ now.defIndex = rule.defIndex := by
    have hsame := h.rule?_eq name
    rw [hrule] at hsame
    exact Option.map_eq_some_iff.mp hsame
  have hdefinition : after.definition? now = some written := by
    unfold definition? at hwritten ⊢
    rw [hplace, h.others _ hplaces]
    exact hwritten
  obtain ⟨next, definition, hafter, hstandsFor, hname, hunrolls⟩ := replaceRule_unrolls h.built hnow
    hdefinition (hstands.extends h.tokens) hkeeps hissues
  have hrules : (after.replaceRule .standard name).grammar.source.rules =
      after.source.rules.set rule.defIndex definition := by
    rw [hafter, ← hplace]
    rfl
  refine ⟨⟨.replaced .standard name h.built,
    (after.extends_replaceRule .standard name).trans h.tokens, ?_, fun place hothers => ?_, ?_⟩,
    (replaceRule_of_allWarnings hnow hdefinition hissues).1⟩
  · rw [hafter]
    refine (map_set_findIdx hnow ?_).trans h.rules
    rw [hname, hstandsFor.defIndex, name_of_rule? hnow]
  · rw [hrules, List.getElem?_set_ne (hothers name (List.mem_append_right _ (List.mem_singleton_self _))
      rule hrule)]
    exact h.others place fun other hother => hothers other (List.mem_append_left _ hother)
  · intro other hother r w hr hw
    rw [hrules]
    rcases List.mem_append.mp hother with hother | hother
    · rw [List.getElem?_set_ne (hplaces other hother r hr).symm]
      exact h.loops other hother r w hr hw
    · obtain rfl := List.mem_singleton.mp hother
      obtain rfl : rule = r := Option.some.inj (hrule.symm.trans hr)
      obtain rfl : written = w := Option.some.inj (hwritten.symm.trans hw)
      exact ⟨definition, List.getElem?_set_self (hplace ▸ (List.getElem?_eq_some_iff.mp hdefinition).1),
        hunrolls.of_grammar before⟩

/-- Rules that can be written out are replaced one after another. -/
theorem Unrolled.replaceRules {before after : Grammar} {done : List String} (names : List String)
    (h : before.Unrolled after done) (htied : before.Tied) (hnodup : (done ++ names).Nodup)
    (hnames : ∀ name ∈ names, ∃ rule written, before.rule? name = some rule ∧
      before.definition? rule = some written ∧ written.Stands before.tokens ∧ written.KeepsName)
    (hissues : AllWarnings (after.replaceRules .standard names).2.1) :
    before.Unrolled (after.replaceRules .standard names).1 (done ++ names) ∧
      (after.replaceRules .standard names).2.2 = names.map (·, true) := by
  induction names generalizing after done with
  | nil =>
      rw [List.append_nil]
      exact ⟨h, rfl⟩
  | cons name names ih =>
      rw [Grammar.replaceRules] at hissues ⊢
      obtain ⟨hfirst, hrest⟩ := AllWarnings.append hissues
      obtain ⟨⟨rule, written, hrule, hwritten, hstands, hkeeps⟩, hnames⟩ := List.forall_mem_cons.mp hnames
      have hnew : name ∉ done := fun hmem =>
        (List.nodup_append.mp hnodup).2.2 name hmem name (List.mem_cons_self ..) rfl
      obtain ⟨hreplaced, hdone⟩ := h.replaceRule htied hnew hrule hwritten hstands hkeeps hfirst
      rw [List.append_cons] at hnodup ⊢
      obtain ⟨hall, hflags⟩ := ih hreplaced hnodup hnames hrest
      exact ⟨hall, congrArg₂ List.cons (Prod.ext rfl hdone) hflags⟩

/-! ## All left-recursive rules -/

/-- A name is listed just if it is that of a left-recursive parser rule. -/
theorem mem_leftRecursiveRules {grammar : Grammar} (hnodup : (grammar.rules.map (·.name)).Nodup)
    {name : String} : name ∈ grammar.leftRecursiveRules ↔
      ∃ rule written, grammar.rule? name = some rule ∧ grammar.definition? rule = some written ∧
        rule.isLexerRule = false ∧ written.isLeftRecursive = true := by
  constructor
  · intro h
    obtain ⟨rule, hrule, rfl⟩ := List.mem_map.mp h
    obtain ⟨hparser, hany⟩ := List.mem_filter.mp hrule
    obtain ⟨hmem, hkind⟩ := List.mem_filter.mp hparser
    obtain ⟨written, hwritten, hrecursive⟩ := (Option.any_eq_true _ _).mp hany
    exact ⟨rule, written, rule?_of_mem hnodup hmem, hwritten, by simpa using hkind, hrecursive⟩
  · rintro ⟨rule, written, hrule, hwritten, hkind, hrecursive⟩
    refine List.mem_map.mpr ⟨rule, List.mem_filter.mpr ⟨List.mem_filter.mpr
      ⟨List.mem_of_find?_eq_some hrule, by simpa using hkind⟩, ?_⟩, name_of_rule? hrule⟩
    exact (Option.any_eq_true _ _).mpr ⟨written, hwritten, hrecursive⟩

theorem nodup_leftRecursiveRules {grammar : Grammar} (hnodup : (grammar.rules.map (·.name)).Nodup) :
    grammar.leftRecursiveRules.Nodup :=
  hnodup.sublist ((List.filter_sublist.trans List.filter_sublist).map _)

/-- Whether the left-recursive parser rules of a grammar can be written out under their names. -/
structure Writable (grammar : Grammar) : Prop where
  unquoted : ∀ rule ∈ grammar.source.rules, rule.isLexerRule = false → rule.isLeftRecursive = true →
    UnquotedIn rule.nodes grammar.tokens.tokens.toList
  names : ∀ rule ∈ grammar.source.rules, rule.isLexerRule = false → rule.isLeftRecursive = true →
    rule.KeepsName

/-- The elimination of left recursion replaces all left-recursive rules and then lets all references
to them demand a precedence. -/
theorem unrolled_eliminate {library : Library} {file source : String} {grammar : Grammar}
    {report : Report} (hgather : gather library file source = (some grammar, report))
    (himports : grammar.source.imports = []) (hwritable : grammar.Writable)
    (hissues : AllWarnings (grammar.eliminate .standard).2.1) :
    ∃ unrolled, grammar.Unrolled unrolled grammar.leftRecursiveRules ∧
      grammar.eliminate .standard = ({ unrolled with
        source := { unrolled.source with
          rules := unrolled.source.rules.map (demandAny grammar.leftRecursiveRules) } },
        (grammar.eliminate .standard).2.1, grammar.leftRecursiveRules) := by
  have hnodup := nodup_gather hgather
  have hnames : ∀ name ∈ grammar.leftRecursiveRules, ∃ rule written,
      grammar.rule? name = some rule ∧ grammar.definition? rule = some written ∧
        written.Stands grammar.tokens ∧ written.KeepsName := by
    intro name hname
    obtain ⟨rule, written, hrule, hwritten, hparser, hrecursive⟩ :=
      (mem_leftRecursiveRules hnodup).mp hname
    have hmem : written ∈ grammar.source.rules := List.mem_of_getElem? hwritten
    have hkind : written.isLexerRule = false := by
      rw [(steady_gather hgather).kinds rule (List.mem_of_find?_eq_some hrule) written
        hwritten, hparser]
    exact ⟨rule, written, hrule, hwritten, stands_gather hgather himports written hmem
      (hwritable.unquoted written hmem hkind hrecursive), hwritable.names written hmem hkind hrecursive⟩
  obtain ⟨hunrolled, hflags⟩ := (Unrolled.refl (.gathered hgather)).replaceRules
    grammar.leftRecursiveRules (tied_gather hgather)
    (by rw [List.nil_append]; exact nodup_leftRecursiveRules hnodup) hnames hissues
  have hreplaced : ((grammar.leftRecursiveRules.map (·, true)).filter (·.2)).map (·.1) =
      grammar.leftRecursiveRules := by
    rw [List.filter_eq_self.mpr (by simp), List.map_map]
    exact List.map_id _
  refine ⟨_, hunrolled, ?_⟩
  unfold eliminate
  dsimp only
  rw [hflags, hreplaced]

end Grammar

end GrammarCompiler
