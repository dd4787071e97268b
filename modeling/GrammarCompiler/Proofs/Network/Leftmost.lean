import GrammarCompiler.Proofs.Grammar.LeftCalls
import GrammarCompiler.Proofs.Network.Language
import GrammarCompiler.Proofs.Network.LeftRecursion

/-!
# A parser network calls on its left what its grammar does

The rules of a parser network call each other on their left just as the rules of the grammar do
(`Hosts.callsLeft_iff`).

What can be stepped over lies between states that are reached from each other without reading, by the
shape of why it can be (`Hosts.silent_of_skips`). In the other direction a way through the network that
reads nothing falls apart into the elements of the rule: either it crosses an element, which can be
stepped over then, or it comes to its goal inside the element, and this is where a rule is called
(`Crosses`). Rules that are stepped over on it have shorter ways, so this is an induction on the number
of transitions.
-/

namespace GrammarCompiler

namespace Network

variable {network : Network} {dialect : Dialect} {scope : Scope}

/-! ## Elements are ways -/

theorem Silent.trans {start mid goal : Nat} (h : network.Silent start mid)
    (h' : network.Silent mid goal) : network.Silent start goal := by
  induction h' with
  | refl => exact h
  | pass _ ht heps hcall ih => exact .pass (ih h) ht heps hcall
  | around _ ht hbody hstop ih _ => exact .around (ih h) ht hbody hstop

theorem Quiet.silent {start goal : Nat} (h : Quiet network start goal) : network.Silent start goal := by
  induction h with
  | refl => exact .refl start
  | tail _ ht ih => exact .pass ih ht rfl rfl

theorem silent_of_ways? {id : Nat} {reluctant : Bool} {t : Transition}
    (hways : network.ways? id = some (reluctant, [t])) (heps : t.isEpsilon = true)
    (hcall : t.isCall = false) : network.Silent id t.target :=
  .pass (.refl id) (inner_iff_ways?.mpr ⟨_, _, hways, List.mem_singleton.mpr rfl⟩) heps hcall

theorem exists_calls?_of_callee? {kind : NetworkKind} {e : Element} {name : String}
    (h : (Dialect.calls? kind e).map (·.1) = some name) :
    ∃ precedence, Dialect.calls? kind e = some (name, precedence) := by
  obtain ⟨⟨_, precedence⟩, hcalls, rfl⟩ := Option.map_eq_some_iff.mp h
  exact ⟨precedence, hcalls⟩

/-- The place of a name that no rule has is one that nothing is read at. -/
theorem Placed.missing {e : Element} {part : Handle} {made : List Made}
    (h : Placed network scope e part made) {name : String} {precedence : Int}
    (hcalls : Dialect.calls? scope.kind e = some (name, precedence))
    (hnone : scope.callee? name = none) :
    network.ways? part.left = some (false, [.epsilon part.right]) := by
  cases h with
  | leaf hleaf hways =>
      cases hleaf with
      | reads ht => cases (reader?_of_calls? hcalls).symm.trans ht
      | call hcalls' hcallee =>
          obtain ⟨rfl, rfl⟩ := Prod.mk.inj (Option.some.inj (hcalls.symm.trans hcalls'))
          cases hnone.symm.trans hcallee
      | missing => exact hways
      | _ => cases hcalls
  | _ => cases hcalls

/-- A row lies between states that are reached from each other without reading, if its elements do. -/
theorem Threads.silent {row : List Element} {id goal : Nat} (h : Threads network scope row id goal)
    (hrow : ∀ e ∈ row, ∀ {left right : Nat}, Spans network scope e left right →
      network.Silent left right) : network.Silent id goal := by
  induction h with
  | nil hquiet => exact hquiet.silent
  | cons hquiet hspans _ ih =>
      obtain ⟨he, hrest⟩ := List.forall_mem_cons.mp hrow
      exact (hquiet.silent.trans (he hspans)).trans (ih hrest)

/-- A block lies around its alternatives. -/
theorem exists_threads_of_spans {alts : List Alt} {options : Options} {extent : Extent}
    {left right : Nat} (h : Spans network scope (.block alts options extent) left right) {alt : Alt}
    (halt : alt ∈ alts) : ∃ start finish, Quiet network left start ∧ Quiet network finish right ∧
      Threads network scope alt.elements start finish := by
  cases h with
  | part hplaced =>
      cases hplaced with
      | leaf hleaf => exact absurd hleaf (by rintro ⟨⟩ <;> contradiction)
      | block halts hchosen =>
          obtain ⟨part, hpart, hthreads⟩ := threads_of_mem halts halt
          obtain ⟨hin, hout⟩ := hchosen.quiet part hpart
          exact ⟨part.left, part.right, hin, hout, hthreads⟩
  | block halts hin hout =>
      obtain ⟨part, hpart, hthreads⟩ := threads_of_mem halts halt
      exact ⟨part.left, part.right, hin part hpart, hout part hpart, hthreads⟩

/-- What can be stepped over lies between states that are reached from each other without reading. -/
theorem Hosts.silent_of_skips (h : network.Hosts dialect) {e : Element} (hskips : dialect.Skips e) :
    ∀ {scope : Scope}, scope.dialect dialect.passes = dialect → ∀ {left right : Nat},
      Spans network scope e left right → network.Silent left right := by
  have hempty : ∀ {scope : Scope} {e : Element} {left right : Nat}, Dialect.Empty e →
      Spans network scope e left right → network.Silent left right := by
    intro scope e left right hempty hspans
    cases hspans with
    | part hplaced =>
        obtain ⟨t, hways, heps, hcall, htarget, -⟩ := hplaced.empty hempty
        exact htarget ▸ silent_of_ways? hways heps hcall
    | block => cases hempty
  have hkind : ∀ {scope : Scope}, scope.dialect dialect.passes = dialect →
      scope.kind = dialect.kind := fun hscope => congrArg Dialect.kind hscope
  have hrule : ∀ {scope : Scope}, scope.dialect dialect.passes = dialect → ∀ name,
      scope.callee? name = dialect.rule? name := fun hscope name =>
    congrArg (fun d => Dialect.rule? d name) hscope
  induction hskips with
  | action code => exact fun _ => hempty (.action code)
  | predicate code =>
      intro scope _ left right hspans
      cases hprecedence : precedenceIn? code.options with
      | none => exact hempty (.predicate hprecedence) hspans
      | some demanded =>
          cases hspans with
          | part hplaced => exact silent_of_ways? (hplaced.precedence hprecedence) rfl rfl
  | command name arg extent => exact fun _ => hempty (.command name arg extent)
  | epsilon extent => exact fun _ => hempty (.epsilon extent)
  | labeled _ ih =>
      intro scope hscope left right hspans
      cases hspans with
      | part hplaced =>
          cases hplaced with
          | leaf hleaf => exact absurd hleaf (by rintro ⟨⟩ <;> contradiction)
          | labeled hinner => exact ih hscope (.part hinner)
  | skipped hsuffix =>
      intro scope hscope left right hspans
      cases hspans with
      | part hplaced => exact ((spans_inner hplaced).1 hsuffix).silent
  | repeated _ ih =>
      intro scope hscope left right hspans
      cases hspans with
      | part hplaced =>
          obtain ⟨-, start, finish, hin, hout, hinner, -⟩ := spans_inner hplaced
          exact (hin.silent.trans (ih hscope hinner)).trans hout.silent
  | block halt _ ih =>
      intro scope hscope left right hspans
      obtain ⟨start, finish, hin, hout, hthreads⟩ := exists_threads_of_spans hspans halt
      exact (hin.silent.trans (hthreads.silent fun e he _ _ => ih e he hscope)).trans hout.silent
  | missing hcallee hnone =>
      intro scope hscope left right hspans
      obtain ⟨precedence, hcalls⟩ := exists_calls?_of_callee? hcallee
      rw [← hkind hscope] at hcalls
      cases hspans with
      | part hplaced =>
          exact silent_of_ways? (hplaced.missing hcalls ((hrule hscope _).trans hnone)) rfl rfl
      | block => cases hcalls
  | reference hcallee hdefines halt _ ih =>
      intro scope hscope left right hspans
      obtain ⟨precedence, hcalls⟩ := exists_calls?_of_callee? hcallee
      rw [← hkind hscope] at hcalls
      obtain ⟨callee, hcallee, hdefinition⟩ := hdefines
      obtain ⟨made, hhoused⟩ := h.housed callee (mem_rulesOf_of_rule? hcallee) _ hdefinition
      obtain ⟨start, stop, hstart, hstop, hthreads⟩ := hhoused.threads halt
      cases hspans with
      | part hplaced =>
          obtain ⟨start', hstart', hways⟩ := hplaced.calls hcalls ((hrule hscope _).trans hcallee)
          obtain rfl := Option.some.inj (hstart.symm.trans hstart')
          exact .around (.refl _)
            (inner_iff_ways?.mpr ⟨_, _, hways, List.mem_singleton.mpr rfl⟩)
            (hthreads.silent fun e he _ _ => ih e he rfl) (h.stops _ _ hstop)
      | block => cases hcalls

/-- A row that comes to a rule lies behind a state from which the call of the rule is reached without
reading. -/
theorem Hosts.exists_call_of_meets (h : network.Hosts dialect) {row : List Element} {name : String}
    (hmeets : dialect.Meets row name) {callee : Rule} (hcallee : dialect.rule? name = some callee)
    {scope : Scope} (hscope : scope.dialect dialect.passes = dialect) :
    ∀ {id goal : Nat}, Threads network scope row id goal → ∃ at_ start precedence follow,
      network.Silent id at_ ∧
        network.Inner at_ (.rule start callee.index precedence follow) := by
  induction hmeets with
  | call hname =>
      intro id goal hthreads
      obtain ⟨precedence, hcalls⟩ := exists_calls?_of_callee? hname
      rw [show dialect.kind = scope.kind from (congrArg Dialect.kind hscope).symm] at hcalls
      cases hthreads with
      | cons hquiet hspans _ =>
          cases hspans with
          | part hplaced =>
              obtain ⟨start, -, hways⟩ := hplaced.calls hcalls
                ((congrArg (fun d => Dialect.rule? d _) hscope).trans hcallee)
              exact ⟨_, start, precedence, _, hquiet.silent,
                inner_iff_ways?.mpr ⟨_, _, hways, List.mem_singleton.mpr rfl⟩⟩
          | block => cases hcalls
  | labeled _ ih =>
      intro id goal hthreads
      cases hthreads with
      | cons hquiet hspans _ =>
          cases hspans with
          | part hplaced =>
              cases hplaced with
              | leaf hleaf => exact absurd hleaf (by rintro ⟨⟩ <;> contradiction)
              | labeled hinner => exact ih hcallee (.cons hquiet (.part hinner) (.nil .refl))
  | block halt _ ih =>
      intro id goal hthreads
      cases hthreads with
      | cons hquiet hspans _ =>
          obtain ⟨start, finish, hin, -, hinner⟩ := exists_threads_of_spans hspans halt
          exact ih hcallee (hinner.quiet (hquiet.trans hin))
  | suffixed _ ih =>
      intro id goal hthreads
      cases hthreads with
      | cons hquiet hspans _ =>
          cases hspans with
          | part hplaced =>
              obtain ⟨-, start, finish, hin, -, hinner, -⟩ := spans_inner hplaced
              exact ih hcallee (.cons (hquiet.trans hin) hinner (.nil .refl))
  | behind hskips _ ih =>
      intro id goal hthreads
      cases hthreads with
      | cons hquiet hspans hrest =>
          obtain ⟨at_, start, precedence, follow, hsilent, ht⟩ := ih hcallee hrest
          have hcross := h.silent_of_skips hskips hscope hspans
          exact ⟨at_, start, precedence, follow,
            (hquiet.silent.trans hcross).trans hsilent, ht⟩

/-! ## Ways fall apart into elements -/

/-- A way on which nothing is read, with the number of its transitions. -/
inductive Flows (network : Network) : Nat → Nat → Nat → Prop
  | done (id : Nat) : Flows network 0 id id
  | pass {k id goal : Nat} {t : Transition} : network.Inner id t → t.isEpsilon = true →
    t.isCall = false → Flows network k t.target goal → Flows network (k + 1) id goal
  | around {j k id target rule follow stop goal : Nat} {precedence : Int} :
    network.Inner id (.rule target rule precedence follow) → Flows network j target stop →
    network.IsStop stop → Flows network k follow goal → Flows network (j + k + 1) id goal

theorem Flows.trans {j k id mid goal : Nat} (h : Flows network j id mid)
    (h' : Flows network k mid goal) : Flows network (j + k) id goal := by
  induction h with
  | done =>
      rw [Nat.zero_add]
      exact h'
  | pass ht heps hcall _ ih =>
      rw [Nat.add_right_comm]
      exact .pass ht heps hcall (ih h')
  | @around i k' id target rule follow stop goal precedence ht hbody hstop _ _ ih =>
      have hcount : i + k' + 1 + k = i + (k' + k) + 1 := by omega
      rw [hcount]
      exact .around ht hbody hstop (ih h')

theorem Silent.exists_flows {start goal : Nat} (h : network.Silent start goal) :
    ∃ k, Flows network k start goal := by
  induction h with
  | refl start => exact ⟨0, .done start⟩
  | pass _ ht heps hcall ih =>
      obtain ⟨_, hfront⟩ := ih
      exact ⟨_, hfront.trans (.pass ht heps hcall (.done _))⟩
  | around _ ht _ hstop ihfront ihbody =>
      obtain ⟨_, hfront⟩ := ihfront
      obtain ⟨_, hbody⟩ := ihbody
      exact ⟨_, hfront.trans (.around ht hbody hstop (.done _))⟩

/-- What is looked for: the end of the rule that a way lies in, or a call of a certain rule. -/
def Sought (network : Network) (callee goal : Nat) : Prop :=
  network.IsStop goal ∨
    ∃ target precedence follow, network.Inner goal (.rule target callee precedence follow)

theorem Inner.mem_ways {id : Nat} {t : Transition} (h : network.Inner id t) {reluctant : Bool}
    {ts : List Transition} (hways : network.ways? id = some (reluctant, ts)) : t ∈ ts := by
  obtain ⟨_, _, hways', ht⟩ := inner_iff_ways?.mp h
  rw [hways, Option.some.injEq] at hways'
  rw [(Prod.mk.inj hways').2]
  exact ht

section Flows

variable {callee k id goal : Nat} {reluctant : Bool}

/-- A way does not come to what is looked for in a state that calls no rule. -/
theorem Flows.next (h : Flows network k id goal) (hgoal : Sought network callee goal)
    {ts : List Transition} (hways : network.ways? id = some (reluctant, ts))
    (hcalls : ∀ t ∈ ts, t.isCall = false) :
    ∃ t ∈ ts, t.isEpsilon = true ∧ ∃ k' < k, Flows network k' t.target goal := by
  cases h with
  | done =>
      rcases hgoal with hstop | ⟨target, precedence, follow, ht⟩
      · exact absurd hstop (not_isStop_of_ways? hways)
      · cases hcalls _ (ht.mem_ways hways)
  | pass ht heps _ hrest => exact ⟨_, ht.mem_ways hways, heps, _, Nat.lt_succ_self _, hrest⟩
  | around ht => cases hcalls _ (ht.mem_ways hways)

theorem Flows.only (h : Flows network k id goal) (hgoal : Sought network callee goal) {target : Nat}
    (hways : network.ways? id = some (reluctant, [.epsilon target])) :
    ∃ k' < k, Flows network k' target goal := by
  obtain ⟨t, ht, -, hrest⟩ := h.next hgoal hways fun t ht => List.mem_singleton.mp ht ▸ rfl
  obtain rfl := List.mem_singleton.mp ht
  exact hrest

theorem Flows.eq_of_isStop (h : Flows network k id goal) (hid : network.IsStop id) : goal = id := by
  cases h with
  | done => rfl
  | pass ht => exact absurd hid ht.not_stop
  | around ht => exact absurd hid ht.not_stop

end Flows

/-- A row comes to the rule with a number. -/
def Comes (dialect : Dialect) (callee : Nat) (row : List Element) : Prop :=
  ∃ name rule, dialect.rule? name = some rule ∧ rule.index = callee ∧ dialect.Meets row name

theorem Comes.mono {callee : Nat} {row row' : List Element} (h : Comes dialect callee row)
    (hrow : ∀ name, dialect.Meets row name → dialect.Meets row' name) : Comes dialect callee row' := by
  obtain ⟨name, rule, hrule, hindex, hmeets⟩ := h
  exact ⟨name, rule, hrule, hindex, hrow name hmeets⟩

/-- Every way of at most `bound` transitions from one state on to what is looked for crosses a row of
elements that can all be stepped over, and then goes on from the other state, or it comes to the rule
within the row. -/
structure Crosses (network : Network) (dialect : Dialect) (bound callee : Nat) (row : List Element)
    (left right : Nat) : Prop where
  cross : ∀ {k goal : Nat}, k ≤ bound → Sought network callee goal → Flows network k left goal →
    (∀ e ∈ row, dialect.Skips e) ∧ (∃ k' ≤ k, Flows network k' right goal) ∨
      ¬network.IsStop goal ∧ Comes dialect callee row

/-- Rules whose ends are reached without reading are known to be ones that can be stepped over. -/
def SkipsKnown (network : Network) (dialect : Dialect) (bound : Nat) : Prop :=
  ∀ k < bound, ∀ (name : String) (callee : Rule) (start stop : Nat),
    dialect.rule? name = some callee → network.ruleStarts[callee.index]? = some start →
    network.IsStop stop → Flows network k start stop → dialect.SkipsRule name

section Crosses

variable {bound callee : Nat} {row row' : List Element} {left mid right : Nat}

theorem Crosses.nil (left : Nat) : Crosses network dialect bound callee [] left left :=
  ⟨fun _ _ hflows => .inl ⟨nofun, _, Nat.le_refl _, hflows⟩⟩

theorem Crosses.append (h : Crosses network dialect bound callee row left mid)
    (h' : Crosses network dialect bound callee row' mid right) :
    Crosses network dialect bound callee (row ++ row') left right := by
  refine ⟨fun {k goal} hk hgoal hflows => ?_⟩
  rcases h.cross hk hgoal hflows with ⟨hrow, k', hle, hrest⟩ | ⟨hstop, hcomes⟩
  · rcases h'.cross (Nat.le_trans hle hk) hgoal hrest with ⟨hrow', k'', hle', hrest'⟩ | ⟨hstop, hcomes⟩
    · refine .inl ⟨fun e he => ?_, k'', Nat.le_trans hle' hle, hrest'⟩
      exact (List.mem_append.mp he).elim (hrow e) (hrow' e)
    · exact .inr ⟨hstop, hcomes.mono fun _ hmeets => hmeets.prepend hrow⟩
  · exact .inr ⟨hstop, hcomes.mono fun _ hmeets => hmeets.append row'⟩

/-- One way on behind a row. -/
theorem Crosses.only (h : Crosses network dialect bound callee row left mid) {reluctant : Bool}
    (hways : network.ways? mid = some (reluctant, [.epsilon right])) :
    Crosses network dialect bound callee row left right := by
  refine ⟨fun {k goal} hk hgoal hflows => ?_⟩
  rcases h.cross hk hgoal hflows with ⟨hrow, k', hle, hrest⟩ | hcomes
  · obtain ⟨k'', hlt, hrest'⟩ := hrest.only hgoal hways
    exact .inl ⟨hrow, k'', by omega, hrest'⟩
  · exact .inr hcomes

/-- One way on before a row. -/
theorem Crosses.behind (h : Crosses network dialect bound callee row mid right) {reluctant : Bool}
    (hways : network.ways? left = some (reluctant, [.epsilon mid])) :
    Crosses network dialect bound callee row left right := by
  refine ⟨fun {k goal} hk hgoal hflows => ?_⟩
  obtain ⟨k', hlt, hrest⟩ := hflows.only hgoal hways
  rcases h.cross (by omega) hgoal hrest with ⟨hrow, k'', hle, hrest'⟩ | hcomes
  · exact .inl ⟨hrow, k'', by omega, hrest'⟩
  · exact .inr hcomes

theorem Crosses.mono (h : Crosses network dialect bound callee row left right)
    (hskips : (∀ e ∈ row, dialect.Skips e) → ∀ e ∈ row', dialect.Skips e)
    (hmeets : ∀ name, dialect.Meets row name → dialect.Meets row' name) :
    Crosses network dialect bound callee row' left right := by
  refine ⟨fun {k goal} hk hgoal hflows => ?_⟩
  rcases h.cross hk hgoal hflows with ⟨hrow, hrest⟩ | ⟨hstop, hcomes⟩
  · exact .inl ⟨hskips hrow, hrest⟩
  · exact .inr ⟨hstop, hcomes.mono hmeets⟩

/-- An element whose only transition calls no rule is crossed if it can be stepped over. -/
theorem crosses_single {e : Element} {t : Transition}
    (hways : network.ways? left = some (false, [t])) (hcall : t.isCall = false)
    (hskips : t.isEpsilon = true → dialect.Skips e ∧ t.target = right) :
    Crosses network dialect bound callee [e] left right := by
  refine ⟨fun {k goal} hk hgoal hflows => .inl ?_⟩
  obtain ⟨t', ht', heps, k', hlt, hrest⟩ :=
    hflows.next hgoal hways fun t' ht' => List.mem_singleton.mp ht' ▸ hcall
  obtain rfl := List.mem_singleton.mp ht'
  obtain ⟨hskip, rfl⟩ := hskips heps
  exact ⟨fun e he => List.mem_singleton.mp he ▸ hskip, k', Nat.le_of_lt hlt, hrest⟩

theorem crosses_call (hknown : SkipsKnown network dialect bound) {e : Element} {name : String}
    (hname : dialect.callee? e = some name) {rule : Rule} (hrule : dialect.rule? name = some rule)
    {start : Nat} (hstart : network.ruleStarts[rule.index]? = some start) {precedence : Int}
    (hways : network.ways? left = some (false, [.rule start rule.index precedence right])) :
    Crosses network dialect bound callee [e] left right := by
  refine ⟨fun {k goal} hk hgoal hflows => ?_⟩
  cases hflows with
  | done =>
      have hstop := not_isStop_of_ways? hways
      refine .inr ⟨hstop, name, rule, hrule, ?_, .call hname⟩
      obtain ⟨target, precedence, follow, ht⟩ := hgoal.resolve_left hstop
      obtain ⟨-, rfl, -⟩ := Transition.rule.inj (List.mem_singleton.mp (ht.mem_ways hways))
      rfl
  | pass ht _ hcall =>
      obtain rfl := List.mem_singleton.mp (ht.mem_ways hways)
      cases hcall
  | @around j k' _ _ _ _ stop _ _ ht hbody hstop hrest =>
      obtain ⟨rfl, -, -, rfl⟩ := Transition.rule.inj (List.mem_singleton.mp (ht.mem_ways hways))
      obtain ⟨definition, hdefines, alt, halt, hskips⟩ :=
        hknown j (by omega) name rule _ stop hrule hstart hstop hbody
      refine .inl ⟨fun e' he' => ?_, k', by omega, hrest⟩
      obtain rfl := List.mem_singleton.mp he'
      exact .reference hname hdefines halt hskips

/-- The choice between parts: a way goes through one of them. -/
theorem crosses_parts {parts : List Handle} {e : Element}
    (h : ∀ p ∈ parts, Crosses network dialect bound callee [e] p.left p.right) {finish : Nat}
    (hrights : ∀ p ∈ parts, network.ways? p.right = some (false, [.epsilon finish]))
    {t : Transition} (ht : t ∈ toParts parts) {k goal : Nat} (hk : k ≤ bound)
    (hgoal : Sought network callee goal) (hflows : Flows network k t.target goal) :
    dialect.Skips e ∧ (∃ k' ≤ k, Flows network k' finish goal) ∨
      ¬network.IsStop goal ∧ Comes dialect callee [e] := by
  obtain ⟨p, hp, rfl⟩ := List.mem_map.mp ht
  rcases ((h p hp).only (hrights p hp)).cross hk hgoal hflows with ⟨hskips, hrest⟩ | hcomes
  · exact .inl ⟨hskips e (List.mem_singleton_self e), hrest⟩
  · exact .inr hcomes

theorem isCall_toParts {parts : List Handle} : ∀ t ∈ toParts parts, t.isCall = false := by
  intro t ht
  obtain ⟨p, -, rfl⟩ := List.mem_map.mp ht
  rfl

theorem isCall_toOptional {parts : List Handle} {finish : Nat} {greedy : Bool} :
    ∀ t ∈ toOptional parts finish greedy, t.isCall = false := by
  intro t ht
  rcases mem_toOptional.mp ht with ht | rfl
  · exact isCall_toParts t ht
  · rfl

theorem isCall_toRound {again finish : Nat} {greedy : Bool} :
    ∀ t ∈ toRound again finish greedy, t.isCall = false := by
  intro t ht
  rcases mem_toRound.mp ht with rfl | rfl <;> rfl

theorem Chosen.crosses {token : Nat} {site : DecisionSite} {parts : List Handle} {whole : Handle}
    {made : List Made} (h : Chosen network token site parts whole made) {e : Element}
    (hparts : ∀ p ∈ parts, Crosses network dialect bound callee [e] p.left p.right) :
    Crosses network dialect bound callee [e] whole.left whole.right := by
  cases h with
  | alone => exact hparts _ (List.mem_singleton.mpr rfl)
  | among _ hleft hrights =>
      refine ⟨fun {k goal} hk hgoal hflows => ?_⟩
      obtain ⟨t, ht, -, k', hlt, hnext⟩ := hflows.next hgoal hleft isCall_toParts
      rcases crosses_parts hparts hrights ht (by omega) hgoal hnext with
        ⟨hskips, k'', hle, hrest⟩ | hcomes
      · exact .inl ⟨fun e' he' => List.mem_singleton.mp he' ▸ hskips, k'', by omega, hrest⟩
      · exact .inr hcomes

theorem Under.crosses {token first : Nat} {greedy : Bool} {suffix : Suffix} {parts : List Handle}
    {whole : Handle} {made : List Made} (h : Under network token first greedy suffix parts whole made)
    {inner : Element} (extent : Extent)
    (hparts : ∀ p ∈ parts, Crosses network dialect bound callee [inner] p.left p.right) :
    Crosses network dialect bound callee [.suffixed suffix greedy inner extent]
      whole.left whole.right := by
  have hcomes : ∀ {suffix : Suffix}, Comes dialect callee [inner] →
      Comes dialect callee [.suffixed suffix greedy inner extent] :=
    fun hinner => hinner.mono fun _ => .suffixed
  cases h with
  | optional hleft hrights =>
      have hskips : ∀ e ∈ [Element.suffixed .optional greedy inner extent], dialect.Skips e :=
        fun e he => List.mem_singleton.mp he ▸ .skipped (by decide)
      refine ⟨fun {k goal} hk hgoal hflows => ?_⟩
      obtain ⟨t, ht, -, k', hlt, hnext⟩ := hflows.next hgoal hleft isCall_toOptional
      rcases mem_toOptional.mp ht with ht | rfl
      · rcases crosses_parts hparts hrights ht (by omega) hgoal hnext with
          ⟨-, k'', hle, hrest⟩ | ⟨hstop, hinner⟩
        · exact .inl ⟨hskips, k'', by omega, hrest⟩
        · exact .inr ⟨hstop, hcomes hinner⟩
      · exact .inl ⟨hskips, k', by omega, hnext⟩
  | star hstart hrights hinner hback hentry =>
      have hskips : ∀ e ∈ [Element.suffixed .closure greedy inner extent], dialect.Skips e :=
        fun e he => List.mem_singleton.mp he ▸ .skipped (by decide)
      refine ⟨fun {k} => ?_⟩
      induction k using Nat.strong_induction_on with
      | _ k ih =>
          intro goal hk hgoal hflows
          obtain ⟨t, ht, -, k1, hlt1, hnext⟩ := hflows.next hgoal hentry isCall_toRound
          rcases mem_toRound.mp ht with rfl | rfl
          · obtain ⟨t, ht, -, k2, hlt2, hnext⟩ := hnext.next hgoal hstart isCall_toParts
            rcases crosses_parts hparts hrights ht (by omega) hgoal hnext with
              ⟨-, k3, hle3, hrest⟩ | ⟨hstop, hin⟩
            · obtain ⟨k4, hlt4, hrest⟩ := hrest.only hgoal hinner
              obtain ⟨k5, hlt5, hrest⟩ := hrest.only hgoal hback
              rcases ih k5 (by omega) (by omega) hgoal hrest with ⟨-, k6, hle6, hrest⟩ | hin
              · exact .inl ⟨hskips, k6, by omega, hrest⟩
              · exact .inr hin
            · exact .inr ⟨hstop, hcomes hin⟩
          · exact .inl ⟨hskips, k1, by omega, hnext⟩
  | plus hstart hrights hinner hback =>
      refine ⟨fun {k} => ?_⟩
      induction k using Nat.strong_induction_on with
      | _ k ih =>
          intro goal hk hgoal hflows
          obtain ⟨t, ht, -, k1, hlt1, hnext⟩ := hflows.next hgoal hstart isCall_toParts
          rcases crosses_parts hparts hrights ht (by omega) hgoal hnext with
            ⟨hskips, k2, hle2, hrest⟩ | ⟨hstop, hin⟩
          · obtain ⟨k3, hlt3, hrest⟩ := hrest.only hgoal hinner
            obtain ⟨t, ht, -, k4, hlt4, hrest⟩ := hrest.next hgoal hback isCall_toRound
            rcases mem_toRound.mp ht with rfl | rfl
            · rcases ih k4 (by omega) (by omega) hgoal hrest with ⟨hskips, k5, hle5, hrest⟩ | hin
              · exact .inl ⟨hskips, k5, by omega, hrest⟩
              · exact .inr hin
            · exact .inl ⟨fun e he => List.mem_singleton.mp he ▸ .repeated hskips, k4, by omega, hrest⟩
          · exact .inr ⟨hstop, hcomes hin⟩

theorem Joined.crosses {parts : List Handle} {whole : Handle} (h : Joined network parts whole)
    (hrow : List.Forall₂ (fun e p => Crosses network dialect bound callee [e] p.left p.right)
      row parts) : Crosses network dialect bound callee row whole.left whole.right := by
  induction h generalizing row with
  | nothing hways =>
      cases hrow with
      | nil => exact Crosses.behind (Crosses.nil _) hways
  | last =>
      obtain ⟨e, rest, hfirst, hrest, rfl⟩ := List.forall₂_cons_right_iff.mp hrow
      cases hrest with
      | nil => exact hfirst
  | cons hways hjoined ih =>
      obtain ⟨e, rest, hfirst, hrest, rfl⟩ := List.forall₂_cons_right_iff.mp hrow
      have hbehind := ih hrest
      rw [hjoined.left_eq] at hbehind
      exact Crosses.append (Crosses.only hfirst hways) hbehind

/-- What is inside an element that has its place, and the alternatives of it if it is a block. -/
structure CrossesBoth (network : Network) (dialect : Dialect) (scope : Scope) (bound callee : Nat)
    (e : Element) : Prop where
  part : ∀ {part : Handle} {made : List Made}, Placed network scope e part made →
    Crosses network dialect bound callee [e] part.left part.right
  alts : ∀ {alts : List Alt} {options : Options} {extent : Extent},
    e = .block alts options extent → ∀ {parts : List Handle} {made : List Made},
      PlacedAlts network scope alts parts made →
        ∀ p ∈ parts, Crosses network dialect bound callee [e] p.left p.right

theorem CrossesBoth.under {suffix : Suffix} {greedy : Bool} {inner : Element} {extent : Extent}
    (h : CrossesBoth network dialect scope bound callee inner) {part : Handle} {made : List Made}
    (hplaced : Placed network scope (.suffixed suffix greedy inner extent) part made) :
    Crosses network dialect bound callee [.suffixed suffix greedy inner extent]
      part.left part.right := by
  cases hplaced with
  | leaf hleaf _ => exact absurd hleaf (by rintro ⟨⟩ <;> contradiction)
  | blockUnder halts hunder => exact hunder.crosses extent (h.alts rfl halts)
  | under _ hplaced hunder =>
      refine hunder.crosses extent fun p hp => ?_
      rw [List.mem_singleton.mp hp]
      exact h.part hplaced

/-- An element without parts. -/
theorem crosses_leaf (h : network.Hosts dialect) (hscope : scope.dialect dialect.passes = dialect)
    {bound : Nat} (hknown : SkipsKnown network dialect bound) {e : Element} {part : Handle}
    {t : Transition} (hleaf : Leaf network scope part.right e t)
    (hways : network.ways? part.left = some (false, [t])) :
    Crosses network dialect bound callee [e] part.left part.right := by
  have hkind : scope.kind = dialect.kind := congrArg Dialect.kind hscope
  have hrule : ∀ name, scope.callee? name = dialect.rule? name := fun name =>
    congrArg (fun d => Dialect.rule? d name) hscope
  cases hleaf with
  | reads ht =>
      have h' : network.Hosts (scope.dialect dialect.passes) := by rw [hscope]; exact h
      obtain ⟨-, heps, -⟩ := h'.reads ht
      refine crosses_single hways ?_ fun heps' => by cases heps.symm.trans heps'
      cases t <;> first | rfl | cases heps
  | call hcalls hcallee hstart =>
      rw [hkind] at hcalls
      exact crosses_call hknown (Dialect.callee?_of_calls? hcalls) ((hrule _).symm.trans hcallee)
        hstart hways
  | missing hcalls hnone =>
      rw [hkind] at hcalls
      exact crosses_single hways rfl fun _ =>
        ⟨.missing (Dialect.callee?_of_calls? hcalls) ((hrule _).symm.trans hnone), rfl⟩
  | action code => exact crosses_single hways rfl fun _ => ⟨.action code, rfl⟩
  | predicate => exact crosses_single hways rfl fun _ => ⟨.predicate _, rfl⟩
  | precedence => exact crosses_single hways rfl fun _ => ⟨.predicate _, rfl⟩
  | command name arg extent => exact crosses_single hways rfl fun _ => ⟨.command name arg extent, rfl⟩
  | epsilon extent => exact crosses_single hways rfl fun _ => ⟨.epsilon extent, rfl⟩

mutual
/-- Ways through an element to what is looked for cross the element or come to a rule in it. -/
theorem crosses_element (h : network.Hosts dialect) (hparser : dialect.kind = .parser)
    (hscope : scope.dialect dialect.passes = dialect) {bound : Nat}
    (hknown : SkipsKnown network dialect bound) (callee : Nat) :
    ∀ e : Element, CrossesBoth network dialect scope bound callee e
  | .block alts options extent => by
      have halts := @crosses_alts h hparser hscope bound hknown callee alts
      have hall : ∀ {parts : List Handle} {made : List Made},
          PlacedAlts network scope alts parts made → ∀ p ∈ parts,
            Crosses network dialect bound callee [.block alts options extent] p.left p.right := by
        intro parts made hplaced p hp
        obtain ⟨alt, halt, hcrosses⟩ := halts hplaced p hp
        refine hcrosses.mono (fun hskips e he => ?_) fun name => .block halt
        obtain rfl := List.mem_singleton.mp he
        exact .block halt hskips
      refine ⟨fun hplaced => ?_, fun heq => by cases heq; exact hall⟩
      cases hplaced with
      | leaf hleaf hways => exact absurd hleaf (by rintro ⟨⟩ <;> contradiction)
      | block hplaced hchosen => exact hchosen.crosses (hall hplaced)
  | .suffixed suffix greedy inner extent =>
      ⟨(crosses_element h hparser hscope hknown callee inner).under, nofun⟩
  | .labeled isList label labelToken inner extent => by
      have hinner := crosses_element h hparser hscope hknown callee inner
      refine ⟨fun hplaced => ?_, nofun⟩
      cases hplaced with
      | leaf hleaf hways => exact absurd hleaf (by rintro ⟨⟩ <;> contradiction)
      | labeled hplaced =>
          refine (hinner.part hplaced).mono (fun hskips e he => ?_) fun name => .labeled
          obtain rfl := List.mem_singleton.mp he
          exact .labeled (hskips _ (List.mem_singleton_self _))
  | .quotation literal => by
      have hno : scope.kind ≠ .lexer := by
        rw [show scope.kind = dialect.kind from congrArg Dialect.kind hscope, hparser]
        decide
      refine ⟨fun hplaced => ?_, nofun⟩
      cases hplaced with
      | leaf hleaf hways => exact crosses_leaf h hscope hknown hleaf hways
      | word hlexer => exact absurd hlexer hno
      | noWord hlexer => exact absurd hlexer hno
  | .ruleRef _ | .tokenRef _ _ _ | .range _ _ _ | .wildcard _ _ | .not _ _ | .set _ _ | .action _
  | .predicate _ | .command _ _ _ | .epsilon _ => by
      refine ⟨fun hplaced => ?_, nofun⟩
      cases hplaced with
      | leaf hleaf hways => exact crosses_leaf h hscope hknown hleaf hways

theorem crosses_row (h : network.Hosts dialect) (hparser : dialect.kind = .parser)
    (hscope : scope.dialect dialect.passes = dialect) {bound : Nat}
    (hknown : SkipsKnown network dialect bound) (callee : Nat) :
    ∀ (es : List Element) {parts : List Handle} {made : List Made},
      PlacedRow network scope es parts made →
        List.Forall₂ (fun e p => Crosses network dialect bound callee [e] p.left p.right) es parts
  | [], _, _, hplaced => by
      cases hplaced with
      | nil => exact .nil
  | e :: es, _, _, hplaced => by
      cases hplaced with
      | cons hpart hrest =>
          exact .cons ((crosses_element h hparser hscope hknown callee e).part hpart)
            (crosses_row h hparser hscope hknown callee es hrest)

theorem crosses_alts (h : network.Hosts dialect) (hparser : dialect.kind = .parser)
    (hscope : scope.dialect dialect.passes = dialect) {bound : Nat}
    (hknown : SkipsKnown network dialect bound) (callee : Nat) :
    ∀ (alts : List Alt) {parts : List Handle} {made : List Made},
      PlacedAlts network scope alts parts made → ∀ p ∈ parts, ∃ alt ∈ alts,
        Crosses network dialect bound callee alt.elements p.left p.right
  | [], _, _, hplaced, p, hp => by
      cases hplaced with
      | nil => cases hp
  | ⟨elements, options, label, extent, info⟩ :: alts, _, _, hplaced, p, hp => by
      cases hplaced with
      | cons hrow hjoined hrest =>
          rcases List.mem_cons.mp hp with rfl | hp
          · exact ⟨_, List.mem_cons_self ..,
              hjoined.crosses (crosses_row h hparser hscope hknown callee elements hrow)⟩
          · obtain ⟨alt, halt, hcrosses⟩ :=
              crosses_alts h hparser hscope hknown callee alts hrest p hp
            exact ⟨alt, List.mem_cons_of_mem _ halt, hcrosses⟩
end

end Crosses

/-! ## Rules -/

theorem mem_of_mem_rulesOf {grammar : Grammar} {kind : NetworkKind} {rule : Rule}
    (h : rule ∈ rulesOf grammar kind) : rule ∈ grammar.rules ∧ rule.isLexerRule = (kind == .lexer) := by
  cases kind with
  | lexer => exact List.mem_filter.mp h
  | parser =>
      obtain ⟨hmem, hkind⟩ := List.mem_filter.mp h
      exact ⟨hmem, show rule.isLexerRule = false by simpa using hkind⟩

/-- A way through a rule to its end steps over an alternative, a way to a call comes to the rule that is
called in an alternative. -/
theorem Hosts.crosses_rule (h : network.Hosts dialect) (hparser : dialect.kind = .parser)
    (hscope : scope.dialect dialect.passes = dialect) {bound : Nat}
    (hknown : SkipsKnown network dialect bound) {definition : RuleDef} {made : List Made}
    (hhoused : Housed network scope definition made) {start : Nat}
    (hstart : network.ruleStarts[scope.rule]? = some start) {k callee goal : Nat} (hk : k ≤ bound)
    (hgoal : Sought network callee goal) (hflows : Flows network k start goal) :
    network.IsStop goal ∧ (∃ alt ∈ definition.alts, ∀ e ∈ alt.elements, dialect.Skips e) ∨
      ¬network.IsStop goal ∧ ∃ alt ∈ definition.alts, Comes dialect callee alt.elements := by
  cases hhoused with
  | @mk start' stop body parts _ _ hstart' hstop hentry halts hchosen hexit =>
      obtain rfl := Option.some.inj (hstart.symm.trans hstart')
      have hparts := crosses_alts h hparser hscope hknown callee definition.alts halts
      -- the rule is a block of its alternatives
      have hblock : Crosses network dialect bound callee
          [.block definition.alts .none definition.extent] body.left body.right := by
        refine hchosen.crosses fun p hp => ?_
        obtain ⟨alt, halt, hcrosses⟩ := hparts p hp
        refine hcrosses.mono (fun hskips e he => ?_) fun name => .block halt
        obtain rfl := List.mem_singleton.mp he
        exact .block halt hskips
      rcases ((hblock.only hexit).behind hentry).cross hk hgoal hflows with
        ⟨hskips, k', -, hrest⟩ | ⟨hnot, name, rule, hrule, hindex, hmeets⟩
      · obtain rfl := hrest.eq_of_isStop (h.stops _ _ hstop)
        exact .inl ⟨h.stops _ _ hstop, Dialect.skips_block.mp (hskips _ (List.mem_singleton_self _))⟩
      · obtain ⟨alt, halt, hmeets⟩ := Dialect.meets_block.mp hmeets
        exact .inr ⟨hnot, alt, halt, name, rule, hrule, hindex, hmeets⟩

section Rules

variable (h : network.Hosts dialect) (hparser : dialect.kind = .parser)
  (hsteady : dialect.grammar.Steady)

include h hparser hsteady

theorem Hosts.skipsKnown (bound : Nat) : SkipsKnown network dialect bound := by
  induction bound with
  | zero => exact fun k hk => absurd hk (Nat.not_lt_zero k)
  | succ bound ih =>
      intro k hk name callee start stop hcallee hstart hstop hflows
      have hmem := mem_rulesOf_of_rule? hcallee
      obtain ⟨definition, hdefinition⟩ := hsteady.definition (Dialect.mem_of_rule? hcallee)
      obtain ⟨made, hhoused⟩ := h.housed callee hmem definition hdefinition
      rcases h.crosses_rule hparser rfl ih hhoused hstart (Nat.le_of_lt_succ hk)
        (show Sought network callee.index stop from .inl hstop) hflows with ⟨-, hskips⟩ | ⟨hnot, -⟩
      · exact ⟨definition, ⟨callee, hcallee, hdefinition⟩, hskips⟩
      · exact absurd hstop hnot

/-- The rules of a parser network call each other on their left as the rules of the grammar do. -/
theorem Hosts.callsLeft_iff (hsound : network.Sound) {caller callee : Rule}
    (hcaller : dialect.rule? caller.name = some caller)
    (hcallee : dialect.rule? callee.name = some callee) :
    network.CallsLeft caller.index callee.index ↔ dialect.LeftCalls caller.name callee.name := by
  have hmem := mem_rulesOf_of_rule? hcaller
  obtain ⟨definition, hdefinition⟩ := hsteady.definition (Dialect.mem_of_rule? hcaller)
  obtain ⟨made, hhoused⟩ := h.housed caller hmem definition hdefinition
  constructor
  · rintro ⟨start, target, hstart, htarget, id, rule, precedence, follow, hsilent, ht⟩
    -- the state in which the call begins tells which rule is called
    obtain rfl : rule = callee.index := by
      obtain ⟨state, hstate, hrule, -⟩ := hsound.starts rule target (hsound.ruled.start_of_call ht)
      obtain ⟨state', hstate', hrule', -⟩ := hsound.starts callee.index target htarget
      rw [← hrule, ← hrule', Option.some.inj (hstate.symm.trans hstate')]
    obtain ⟨k, hflows⟩ := hsilent.exists_flows
    rcases h.crosses_rule hparser rfl (h.skipsKnown hparser hsteady k) hhoused hstart (Nat.le_refl k)
      (.inr ⟨target, precedence, follow, ht⟩) hflows with
      ⟨hstop, -⟩ | ⟨-, alt, halt, name, rule, hrule, hindex, hmeets⟩
    · exact absurd hstop ht.not_stop
    · obtain rfl : rule = callee := List.inj_on_of_nodup_map
        (nodup_rulesOf hsteady.numbered dialect.kind) (mem_rulesOf_of_rule? hrule)
        (mem_rulesOf_of_rule? hcallee) hindex
      rw [← Dialect.name_of_rule? hrule] at hmeets
      exact ⟨⟨_, hcallee⟩, definition, ⟨caller, hcaller, hdefinition⟩, alt, halt, hmeets⟩
  · rintro ⟨-, definition', hdefines, alt, halt, hmeets⟩
    obtain rfl := Dialect.Defines.unique hdefines ⟨caller, hcaller, hdefinition⟩
    obtain ⟨start, stop, hstart, hstop, hthreads⟩ := hhoused.threads halt
    obtain ⟨id, target, precedence, follow, hsilent, ht⟩ :=
      h.exists_call_of_meets hmeets hcallee rfl hthreads
    exact ⟨start, target, hstart, hsound.ruled.start_of_call ht, id, _, _, _, hsilent, ht⟩

/-! ## Cycles -/

variable (hsound : network.Sound)
  (hsize : network.ruleStarts.size = (rulesOf dialect.grammar dialect.kind).length)
  (hnodup : (dialect.grammar.rules.map (·.name)).Nodup)

include hsound

/-- Names that come to call each other on the left are those of rules whose numbers do. -/
theorem Hosts.callsLeft_of_leftCalls {a b : String} (hcalls : Relation.TransGen dialect.LeftCalls a b) :
    ∃ caller callee, dialect.rule? a = some caller ∧ dialect.rule? b = some callee ∧
      Relation.TransGen network.CallsLeft caller.index callee.index := by
  have hstep : ∀ {a b : String}, dialect.LeftCalls a b → ∃ caller callee,
      dialect.rule? a = some caller ∧ dialect.rule? b = some callee ∧
        network.CallsLeft caller.index callee.index := by
    intro a b hcall
    obtain ⟨⟨callee, hcallee⟩, definition, ⟨caller, hcaller, hdefinition⟩, -⟩ := id hcall
    have ha := Dialect.name_of_rule? hcaller
    have hb := Dialect.name_of_rule? hcallee
    refine ⟨caller, callee, hcaller, hcallee, ?_⟩
    rw [← ha] at hcaller
    rw [← hb] at hcallee
    refine (h.callsLeft_iff hparser hsteady hsound hcaller hcallee).mpr ?_
    rw [ha, hb]
    exact hcall
  induction hcalls with
  | single hcall =>
      obtain ⟨caller, callee, hcaller, hcallee, hcall⟩ := hstep hcall
      exact ⟨caller, callee, hcaller, hcallee, .single hcall⟩
  | tail _ hcall ih =>
      obtain ⟨caller, middle, hcaller, hmiddle, hcalls⟩ := ih
      obtain ⟨middle', callee, hmiddle', hcallee, hcall⟩ := hstep hcall
      obtain rfl := Option.some.inj (hmiddle.symm.trans hmiddle')
      exact ⟨caller, callee, hcaller, hcallee, hcalls.tail hcall⟩

include hsize hnodup

theorem Hosts.leftCalls_of_callsLeft {a b : Nat} (hcalls : Relation.TransGen network.CallsLeft a b) :
    ∃ caller callee, dialect.rule? caller.name = some caller ∧
      dialect.rule? callee.name = some callee ∧ caller.index = a ∧ callee.index = b ∧
        Relation.TransGen dialect.LeftCalls caller.name callee.name := by
  have hfound : ∀ number start : Nat, network.ruleStarts[number]? = some start →
      ∃ rule, dialect.rule? rule.name = some rule ∧ rule.index = number := by
    intro number start hstart
    have hlt : number < (rulesOf dialect.grammar dialect.kind).length := by
      rw [← hsize]
      exact (Array.getElem?_eq_some_iff.mp hstart).1
    refine ⟨_, ?_, rulesOf_index hsteady.numbered _ number _ (List.getElem?_eq_getElem hlt)⟩
    obtain ⟨hmem, hkind⟩ := mem_of_mem_rulesOf (List.getElem_mem hlt)
    exact Option.filter_eq_some_iff.mpr ⟨Grammar.rule?_of_mem hnodup hmem, beq_iff_eq.mpr hkind⟩
  have hstep : ∀ {a b : Nat}, network.CallsLeft a b → ∃ caller callee,
      dialect.rule? caller.name = some caller ∧ dialect.rule? callee.name = some callee ∧
        caller.index = a ∧ callee.index = b ∧ dialect.LeftCalls caller.name callee.name := by
    intro a b hcall
    obtain ⟨start, target, hstart, htarget, -⟩ := id hcall
    obtain ⟨caller, hcaller, rfl⟩ := hfound a start hstart
    obtain ⟨callee, hcallee, rfl⟩ := hfound b target htarget
    exact ⟨caller, callee, hcaller, hcallee, rfl, rfl,
      (h.callsLeft_iff hparser hsteady hsound hcaller hcallee).mp hcall⟩
  induction hcalls with
  | single hcall =>
      obtain ⟨caller, callee, hcaller, hcallee, ha, hb, hcall⟩ := hstep hcall
      exact ⟨caller, callee, hcaller, hcallee, ha, hb, .single hcall⟩
  | tail _ hcall ih =>
      obtain ⟨caller, middle, hcaller, hmiddle, ha, hindex, hcalls⟩ := ih
      obtain ⟨middle', callee, hmiddle', hcallee, hindex', hb, hcall⟩ := hstep hcall
      obtain rfl : middle = middle' := List.inj_on_of_nodup_map
        (nodup_rulesOf hsteady.numbered dialect.kind) (mem_rulesOf_of_rule? hmiddle)
        (mem_rulesOf_of_rule? hmiddle') (hindex.trans hindex'.symm)
      exact ⟨caller, callee, hcaller, hcallee, ha, hb, hcalls.tail hcall⟩

/-- The network has cycles exactly if a rule of the grammar comes to call itself on its left. -/
theorem Hosts.cycles_iff :
    network.cycles ≠ [] ↔ ∃ name, Relation.TransGen dialect.LeftCalls name name := by
  rw [hsound.cycles_iff]
  constructor
  · rintro ⟨number, hcalls⟩
    obtain ⟨caller, callee, hcaller, hcallee, hindex, hindex', hcalls⟩ :=
      h.leftCalls_of_callsLeft hparser hsteady hsound hsize hnodup hcalls
    obtain rfl : caller = callee := List.inj_on_of_nodup_map
      (nodup_rulesOf hsteady.numbered dialect.kind) (mem_rulesOf_of_rule? hcaller)
      (mem_rulesOf_of_rule? hcallee) (hindex.trans hindex'.symm)
    exact ⟨caller.name, hcalls⟩
  · rintro ⟨name, hcalls⟩
    obtain ⟨caller, callee, hcaller, hcallee, hcalls⟩ :=
      h.callsLeft_of_leftCalls hparser hsteady hsound hcalls
    obtain rfl := Option.some.inj (hcaller.symm.trans hcallee)
    exact ⟨caller.index, hcalls⟩

end Rules

end Network

end GrammarCompiler
