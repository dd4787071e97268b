import GrammarCompiler.Proofs.Grammar.Built
import GrammarCompiler.Proofs.Network.Assembly

/-!
# Cycles are left recursion

The trace of a network finds a cycle exactly if some rule calls itself on its left. That it meets
every ring of left calls is shown with the calls themselves (`exists_met`). Here it is shown that
whatever it reports is true: the rules of a cycle call each other on their left, all of them
(`Real`).

The search knows more than it keeps. While it stands at a state, this state can be reached from
the start of the rule that was entered last, and that rule from all others that are being traced
(`Chased`). So a call of one of them closes a ring of left calls.
-/

namespace GrammarCompiler

/-! ## Calls between numbered rules -/

namespace Network

/-- A rule calls another one on its left. Rules are known by their numbers. -/
def CallsLeft (network : Network) (caller callee : Nat) : Prop :=
  ∃ start target, network.ruleStarts[caller]? = some start ∧
    network.ruleStarts[callee]? = some target ∧ network.LeftCall start target

/-- A cycle that is what it is said to be: different rules that all come to call each other, and
themselves, on their left. -/
structure Real (network : Network) (cycle : List Nat) : Prop where
  nonempty : cycle ≠ []
  nodup : cycle.Nodup
  linked : ∀ a ∈ cycle, ∀ b ∈ cycle, Relation.TransGen network.CallsLeft a b

section Real

variable {network : Network} {cycle : List Nat} {a b : Nat}

/-- A rule may be added that calls one of the others and is called by it. -/
theorem Real.pushUnique (h : network.Real cycle) (ha : a ∈ cycle)
    (hab : Relation.TransGen network.CallsLeft a b)
    (hba : Relation.TransGen network.CallsLeft b a) :
    network.Real (Cycles.pushUnique cycle b) := by
  refine ⟨?_, Cycles.nodup_pushUnique h.nodup b, fun x hx y hy => ?_⟩
  · exact List.ne_nil_of_mem (Cycles.mem_pushUnique.mpr (Or.inr rfl))
  · have hto : Relation.TransGen network.CallsLeft x a := by
      rcases Cycles.mem_pushUnique.mp hx with hx | rfl
      · exact h.linked x hx a ha
      · exact hba
    rcases Cycles.mem_pushUnique.mp hy with hy | rfl
    · exact hto.trans (h.linked a ha y hy)
    · exact hto.trans hab

theorem Real.merge (h : network.Real cycle) {caller callee : Nat}
    (hcalls : Relation.TransGen network.CallsLeft caller callee)
    (hback : Relation.TransGen network.CallsLeft callee caller) :
    network.Real (Cycles.merge caller callee cycle).1 := by
  have hpush : ∀ {a b : Nat} {cycle : List Nat}, network.Real cycle →
      Relation.TransGen network.CallsLeft a b → Relation.TransGen network.CallsLeft b a →
      network.Real (if cycle.contains a then Cycles.pushUnique cycle b else cycle) := by
    intro a b cycle h hab hba
    split
    · next hmem => exact h.pushUnique (List.contains_iff_mem.mp hmem) hab hba
    · exact h
  exact hpush (hpush h hback hcalls) hcalls hback

/-- Two rules that call each other make a cycle. -/
theorem real_pair {caller callee : Nat}
    (hcalls : Relation.TransGen network.CallsLeft caller callee)
    (hback : Relation.TransGen network.CallsLeft callee caller) :
    network.Real (Cycles.pushUnique [callee] caller) := by
  have hone : network.Real [callee] := by
    refine ⟨List.cons_ne_nil _ _, List.nodup_singleton _, fun a ha b hb => ?_⟩
    obtain rfl := List.mem_singleton.mp ha
    obtain rfl := List.mem_singleton.mp hb
    exact hback.trans hcalls
  exact hone.pushUnique (List.mem_singleton_self _) hback hcalls

theorem real_add {cycles : Cycles} (h : ∀ cycle ∈ cycles, network.Real cycle)
    {caller callee : Nat} (hcalls : Relation.TransGen network.CallsLeft caller callee)
    (hback : Relation.TransGen network.CallsLeft callee caller) :
    ∀ cycle ∈ cycles.add caller callee, network.Real cycle := by
  have hmerged : ∀ cycle ∈ (cycles.map (Cycles.merge caller callee)).map (·.1),
      network.Real cycle := by
    intro cycle hcycle
    obtain ⟨merged, hmerged, rfl⟩ := List.mem_map.mp hcycle
    obtain ⟨before, hbefore, rfl⟩ := List.mem_map.mp hmerged
    exact (h before hbefore).merge hcalls hback
  unfold Cycles.add
  dsimp only
  split
  · exact hmerged
  · intro cycle hcycle
    rcases List.mem_append.mp hcycle with hold | hnew
    · exact hmerged cycle hold
    · obtain rfl := List.mem_singleton.mp hnew
      exact real_pair hcalls hback

end Real

/-! ## Numbers and start states -/

section Numbers

variable {network : Network}

theorem Ruled.number_of_leftCall (hruled : network.Ruled) {start target : Nat}
    (h : network.LeftCall start target) : ∃ rule : Nat, network.ruleStarts[rule]? = some target := by
  obtain ⟨id, rule, precedence, follow, -, ht⟩ := h
  exact ⟨rule, hruled.start_of_call ht⟩

/-- Left calls between start states are left calls between their rules. -/
theorem Ruled.callsLeft (hruled : network.Ruled) {a b start target : Nat}
    (ha : network.ruleStarts[a]? = some start) (hb : network.ruleStarts[b]? = some target)
    (h : Relation.TransGen network.LeftCall start target) :
    Relation.TransGen network.CallsLeft a b := by
  induction h generalizing b with
  | single hcall => exact .single ⟨_, _, ha, hb, hcall⟩
  | tail hcalls hcall ih =>
      obtain ⟨c, hc⟩ : ∃ c : Nat, network.ruleStarts[c]? = some _ := by
        cases hcalls with
        | single h => exact hruled.number_of_leftCall h
        | tail _ h => exact hruled.number_of_leftCall h
      exact (ih hc).tail ⟨_, _, hc, hb, hcall⟩

theorem leftCall_of_callsLeft {a b : Nat} (h : Relation.TransGen network.CallsLeft a b) :
    ∃ start target, network.ruleStarts[a]? = some start ∧ network.ruleStarts[b]? = some target ∧
      Relation.TransGen network.LeftCall start target := by
  induction h with
  | single hcall =>
      obtain ⟨start, target, ha, hb, hcall⟩ := hcall
      exact ⟨start, target, ha, hb, .single hcall⟩
  | tail _ hcall ih =>
      obtain ⟨start, middle, ha, hmiddle, hcalls⟩ := ih
      obtain ⟨middle', target, hmiddle', hb, hcall⟩ := hcall
      obtain rfl : middle = middle' := Option.some.inj (hmiddle.symm.trans hmiddle')
      exact ⟨start, target, ha, hb, hcalls.tail hcall⟩

end Numbers

/-! ## Fuel -/

section Fuel

variable {network : Network}

theorem visited_of_fold {fuel : Nat} (ih : ∀ tracing id trace, ∀ x ∈ trace.visited,
      x ∈ (network.traceFrom fuel tracing id trace).2.visited)
    {tracing : List Nat} {rule : Nat} (ts : List Transition) (found : Bool × Trace) :
    ∀ x ∈ found.2.visited,
      x ∈ (ts.foldl (network.traceStep fuel tracing rule) found).2.visited := by
  induction ts generalizing found with
  | nil => exact fun x hx => hx
  | cons t ts ihts =>
      refine fun x hx => ihts _ x ?_
      unfold traceStep
      split
      · split
        · exact hx
        · dsimp only
          split
          · exact ih _ _ _ x hx
          · exact hx
      · split
        · exact ih _ _ _ x hx
        · exact hx

/-- No trace forgets a state that has been visited. -/
theorem visited_of_traceFrom (fuel : Nat) : ∀ tracing id trace, ∀ x ∈ trace.visited,
    x ∈ (network.traceFrom fuel tracing id trace).2.visited := by
  induction fuel with
  | zero => exact fun _ _ _ x hx => hx
  | succ fuel ih =>
      intro tracing id trace x hx
      rw [traceFrom_succ]
      split
      · exact hx
      · split
        · exact hx
        · split
          · exact hx
          · exact visited_of_fold ih _ _ x (List.mem_cons_of_mem _ hx)

/-- A step does not depend on the fuel if no trace does that it makes. -/
theorem traceStep_fuel {fuel fuel' id : Nat} {tracing : List Nat} {found : Bool × Trace}
    (ih : ∀ tracing id trace, network.pathsLeft tracing trace.visited ≤ fuel →
      network.traceFrom fuel' tracing id trace = network.traceFrom fuel tracing id trace)
    (hleft : ∀ visited, (∀ x ∈ found.2.visited, x ∈ visited) →
      network.pathsLeft tracing visited ≤ fuel)
    {t : Transition} (ht : network.Inner id t) (rule : Nat) :
    network.traceStep fuel' tracing rule found t = network.traceStep fuel tracing rule found t := by
  cases hcall : t.isCall with
  | false =>
      rw [traceStep_of_not_call hcall, traceStep_of_not_call hcall,
        ih tracing t.target found.2 (hleft _ fun _ h => h)]
  | true =>
      cases t with
      | rule target callee precedence follow =>
          unfold traceStep
          dsimp only
          split
          · rfl
          · next hnot =>
            have hnew : target ∉ tracing := by simpa using hnot
            have hinner := pathsLeft_call (mem_callees ht) hnew found.2.visited
            rw [ih (target :: tracing) target { found.2 with visited := [] }
              (hinner.trans (hleft _ fun _ h => h))]
            generalize network.traceFrom fuel (target :: tracing) target
              { found.2 with visited := [] } = inner
            rw [ih tracing follow { inner.2 with visited := found.2.visited }
              (hleft _ fun _ h => h)]
      | _ => cases hcall

theorem fold_fuel {fuel fuel' id : Nat} {tracing before : List Nat}
    (ih : ∀ tracing id trace, network.pathsLeft tracing trace.visited ≤ fuel →
      network.traceFrom fuel' tracing id trace = network.traceFrom fuel tracing id trace)
    (hid : id < network.size) (hnew : id ∉ before)
    (hfuel : network.pathsLeft tracing before ≤ fuel + 1) {rule : Nat} (ts : List Transition)
    (hts : ∀ t ∈ ts, network.Inner id t) (found : Bool × Trace)
    (hvisited : ∀ x ∈ id :: before, x ∈ found.2.visited) :
    ts.foldl (network.traceStep fuel' tracing rule) found =
      ts.foldl (network.traceStep fuel tracing rule) found := by
  induction ts generalizing found with
  | nil => rfl
  | cons t ts ihts =>
      obtain ⟨ht, hts⟩ := List.forall_mem_cons.mp hts
      rw [List.foldl_cons, List.foldl_cons, traceStep_fuel ih (fun visited h => ?_) ht]
      · exact ihts hts _ fun x hx =>
          visited_of_fold (fun _ _ _ => visited_of_traceFrom fuel _ _ _) [t] found x (hvisited x hx)
      · have := @pathsLeft_visit _ _ hid tracing _ _ hnew fun x hx => h x (hvisited x hx)
        omega

/-- A trace comes to its end: with the fuel for all paths that are left, more of it changes
nothing. -/
theorem traceFrom_fuel {fuel fuel' : Nat} (hle : fuel ≤ fuel') : ∀ tracing id trace,
    network.pathsLeft tracing trace.visited ≤ fuel →
    network.traceFrom fuel' tracing id trace = network.traceFrom fuel tracing id trace := by
  induction fuel generalizing fuel' with
  | zero =>
      intro tracing id trace hfuel
      unfold pathsLeft at hfuel
      omega
  | succ fuel ih =>
      obtain ⟨fuel', rfl⟩ : ∃ n, fuel' = n + 1 := ⟨fuel' - 1, by omega⟩
      intro tracing id trace hfuel
      rw [traceFrom_succ, traceFrom_succ]
      cases hstate : network.state? id with
      | none => rfl
      | some state =>
          dsimp only
          split
          · rfl
          · next hstop =>
            split
            · rfl
            · next hseen =>
              have hnew : id ∉ trace.visited := fun h => hseen (List.contains_iff_mem.mpr h)
              exact fold_fuel (ih (by omega)) (Array.getElem?_eq_some_iff.mp hstate).1 hnew hfuel _
                (fun t ht => ⟨state, hstate, hstop, ht⟩) _ fun x hx => hx

end Fuel

/-! ## What a trace may claim -/

/-- The state where a trace stands: it can be reached in the rule that was entered last, and that
rule can be reached from all that are being traced. -/
structure Chased (network : Network) (tracing : List Nat) (start id : Nat) : Prop where
  numbered : ∃ rule : Nat, network.ruleStarts[rule]? = some start
  here : network.Silent start id
  active : ∀ s ∈ tracing, Relation.ReflTransGen network.LeftCall s start

/-- What a trace of the rule with this start says is true: its cycles are real, and if it says
that the rule can end, then it can. It has not left the network. -/
structure Honest (network : Network) (start : Nat) (found : Bool × Trace) : Prop where
  real : ∀ cycle ∈ found.2.cycles, network.Real cycle
  ends : found.1 = true → ∃ stop, network.Silent start stop ∧ network.IsStop stop
  kept : found.2.lost = false

section Honest

variable {network : Network} {tracing : List Nat} {start id : Nat} {found : Bool × Trace}

/-- What is true of a trace does not depend on the states that it counts as visited. -/
theorem Honest.withVisited (h : network.Honest start found) (visited : List Nat) :
    network.Honest start (false, { found.2 with visited }) :=
  ⟨h.real, nofun, h.kept⟩

theorem Honest.or (h : network.Honest start found) {behind : Bool × Trace}
    (h' : network.Honest start behind) : network.Honest start (found.1 || behind.1, behind.2) :=
  ⟨h'.real, fun hor => (Bool.or_eq_true_iff.mp hor).elim h.ends h'.ends, h'.kept⟩

theorem Chased.move (h : network.Chased tracing start id) {next : Nat}
    (hnext : network.Silent start next) : network.Chased tracing start next :=
  ⟨h.numbered, hnext, h.active⟩

/-- A call of a rule that is being traced closes a ring of left calls. -/
theorem Chased.ring (hruled : network.Ruled) (h : network.Chased tracing start id)
    {state : State} (hstate : network.state? id = some state)
    {target callee follow : Nat} {precedence : Int}
    (ht : network.Inner id (.rule target callee precedence follow)) (hactive : target ∈ tracing) :
    Relation.TransGen network.CallsLeft state.rule callee ∧
      Relation.TransGen network.CallsLeft callee state.rule := by
  obtain ⟨rule, hrule⟩ := h.numbered
  have hhere := h.here.hasRule hruled (hruled.starts rule start hrule)
  obtain ⟨state', hstate', rfl, -⟩ := hhere
  obtain rfl : state' = state := Option.some.inj (hstate'.symm.trans hstate)
  have hcallee := hruled.start_of_call ht
  have hcall : network.LeftCall start target := ⟨_, _, _, _, h.here, ht⟩
  refine ⟨hruled.callsLeft hrule hcallee (.single hcall), ?_⟩
  rcases (h.active target hactive).cases_head with rfl | ⟨next, hfirst, hrest⟩
  · exact hruled.callsLeft hcallee hrule (.single hcall)
  · exact hruled.callsLeft hcallee hrule (Relation.TransGen.head' hfirst hrest)

theorem Chased.enter (hruled : network.Ruled) (h : network.Chased tracing start id)
    {target callee follow : Nat} {precedence : Int}
    (ht : network.Inner id (.rule target callee precedence follow)) :
    network.Chased (target :: tracing) target target := by
  refine ⟨⟨callee, hruled.start_of_call ht⟩, .refl target, fun s hs => ?_⟩
  rcases List.mem_cons.mp hs with rfl | hs
  · exact .refl
  · exact (h.active s hs).tail ⟨_, _, _, _, h.here, ht⟩

/-- What is to be shown of all traces with a given fuel. -/
def HonestWith (network : Network) (fuel : Nat) : Prop :=
  ∀ tracing start id trace, network.Chased tracing start id →
    network.Honest start (false, trace) →
    network.Honest start (network.traceFrom fuel tracing id trace)

theorem honest_of_traceStep (hruled : network.Ruled) {fuel : Nat}
    (ih : network.HonestWith fuel) (hchased : network.Chased tracing start id) {state : State}
    (hstate : network.state? id = some state) (hfound : network.Honest start found)
    {t : Transition} (ht : network.Inner id t) :
    network.Honest start (network.traceStep fuel tracing state.rule found t) := by
  cases hcall : t.isCall with
  | false =>
      rw [traceStep_of_not_call hcall]
      split
      · next heps =>
        have hnext := hchased.move (.pass hchased.here ht heps hcall)
        exact hfound.or (ih _ _ _ _ hnext (hfound.withVisited _))
      · exact hfound
  | true =>
      cases t with
      | rule target callee precedence follow =>
          unfold traceStep
          dsimp only
          split
          · next hactive =>
            obtain ⟨hcalls, hback⟩ :=
              hchased.ring hruled hstate ht (List.contains_iff_mem.mp hactive)
            exact ⟨real_add hfound.real hcalls hback, hfound.ends, hfound.kept⟩
          · have hinner := ih (target :: tracing) target target { found.2 with visited := [] }
              (hchased.enter hruled ht) ⟨hfound.real, nofun, hfound.kept⟩
            generalize network.traceFrom fuel (target :: tracing) target
              { found.2 with visited := [] } = inner at hinner
            split
            · next hends =>
              obtain ⟨stop, hstop, hisStop⟩ := hinner.ends hends
              have hnext := hchased.move (.around hchased.here ht hstop hisStop)
              refine hfound.or (ih _ _ _ _ hnext ⟨hinner.real, nofun, hinner.kept⟩)
            · exact ⟨hinner.real, hfound.ends, hinner.kept⟩
      | _ => cases hcall

theorem honest_of_fold (hruled : network.Ruled) {fuel : Nat} (ih : network.HonestWith fuel)
    (hchased : network.Chased tracing start id) {state : State}
    (hstate : network.state? id = some state) (ts : List Transition)
    (hts : ∀ t ∈ ts, network.Inner id t) (hfound : network.Honest start found) :
    network.Honest start (ts.foldl (network.traceStep fuel tracing state.rule) found) := by
  induction ts generalizing found with
  | nil => exact hfound
  | cons t ts ihts =>
      obtain ⟨ht, hts⟩ := List.forall_mem_cons.mp hts
      exact ihts hts (honest_of_traceStep hruled ih hchased hstate hfound ht)

theorem honestWith (hruled : network.Ruled) (fuel : Nat) : network.HonestWith fuel := by
  induction fuel with
  | zero => exact fun _ _ _ _ _ h => h
  | succ fuel ih =>
      intro tracing start id trace hchased htrace
      obtain ⟨rule, hrule⟩ := hchased.numbered
      obtain ⟨state, hstate, -⟩ := hchased.here.hasRule hruled (hruled.starts rule start hrule)
      rw [traceFrom_succ, hstate]
      dsimp only
      split
      · next hstop =>
        exact ⟨htrace.real, fun _ => ⟨id, hchased.here, state, hstate, hstop⟩, htrace.kept⟩
      · next hstop =>
        split
        · exact htrace
        · exact honest_of_fold hruled ih hchased hstate _ (fun t ht => ⟨state, hstate, hstop, ht⟩)
            ⟨htrace.real, nofun, htrace.kept⟩

end Honest

/-! ## All rules -/

/-- The cycles that are found by tracing rules one after another are real. -/
theorem honest_of_rules {network : Network} (hruled : network.Ruled) (starts : List Nat)
    (hstarts : ∀ start ∈ starts, ∃ rule : Nat, network.ruleStarts[rule]? = some start)
    {trace : Trace} (hreal : ∀ cycle ∈ trace.cycles, network.Real cycle)
    (hkept : trace.lost = false) {result : Trace}
    (hresult : result = starts.foldl (fun trace start =>
      (network.traceFrom network.traceBound [start] start { trace with visited := [] }).2) trace) :
    (∀ cycle ∈ result.cycles, network.Real cycle) ∧ result.lost = false := by
  induction starts generalizing trace with
  | nil =>
      subst hresult
      exact ⟨hreal, hkept⟩
  | cons start starts ih =>
      obtain ⟨hstart, hrest⟩ := List.forall_mem_cons.mp hstarts
      have hchased : network.Chased [start] start start :=
        ⟨hstart, .refl start, fun s hs => List.mem_singleton.mp hs ▸ .refl⟩
      have hone := honestWith hruled network.traceBound [start] start start
        { trace with visited := [] } hchased ⟨hreal, nofun, hkept⟩
      exact ih hrest hone.real hone.kept hresult

/-- A list each member of which has an image has a list of images. -/
theorem exists_mapM {α β : Type} {f : α → Option β} (l : List α) (h : ∀ a ∈ l, ∃ b, f a = some b) :
    ∃ bs, l.mapM f = some bs ∧ bs.length = l.length := by
  induction l with
  | nil => exact ⟨[], rfl, rfl⟩
  | cons a l ih =>
      obtain ⟨⟨b, hb⟩, hl⟩ := List.forall_mem_cons.mp h
      obtain ⟨bs, hbs, hlength⟩ := ih hl
      refine ⟨b :: bs, ?_, congrArg (· + 1) hlength⟩
      rw [List.mapM_cons, hb, hbs]
      rfl

/-- All rules in the cycles of a network have names. -/
theorem Sound.names?_cycles {network : Network} (h : network.Sound) :
    ∃ names, network.cycles.names? network.ruleNames = some names ∧
      (network.cycles ≠ [] → ∃ name, names.head?.bind List.head? = some name) := by
  obtain ⟨hreal, -⟩ := honest_of_rules h.ruled network.ruleStarts.toList
    (fun start hstart => Array.mem_iff_getElem?.mp (Array.mem_toList_iff.mp hstart))
    (show ∀ cycle ∈ ({} : Trace).cycles, network.Real cycle from nofun) rfl
    (show network.traceRules = _ from rfl)
  have hcycle : ∀ cycle ∈ network.cycles, ∃ names, cycle.mapM (network.ruleNames[·]?) = some names ∧
      names.length = cycle.length := by
    refine fun cycle hmem => exists_mapM cycle fun rule hrule => ?_
    obtain ⟨callee, ⟨start, target, hstart, -⟩, -⟩ :=
      Relation.TransGen.head'_iff.mp ((hreal cycle hmem).linked rule hrule rule hrule)
    have hlt := (Array.getElem?_eq_some_iff.mp hstart).1
    exact ⟨_, Array.getElem?_eq_getElem (by rw [h.named]; exact hlt)⟩
  obtain ⟨names, hnames, hlength⟩ := exists_mapM network.cycles fun cycle hmem =>
    (hcycle cycle hmem).imp fun _ => And.left
  refine ⟨names, hnames, fun hne => ?_⟩
  cases hcycles : network.cycles with
  | nil => exact absurd hcycles hne
  | cons cycle cycles =>
      have hmem : cycle ∈ network.cycles := by
        rw [hcycles]
        exact List.mem_cons_self ..
      obtain ⟨first, hfirst, hsize⟩ := hcycle cycle hmem
      have hsome : first ≠ [] := by
        rintro rfl
        exact (hreal cycle hmem).nonempty (List.length_eq_zero_iff.mp hsize.symm)
      rw [hcycles, List.mapM_cons, hfirst, Option.bind_eq_bind, Option.bind_some] at hnames
      obtain ⟨others, -, hothers⟩ := Option.bind_eq_some_iff.mp hnames
      obtain rfl := Option.some.inj hothers
      exact ⟨first.head hsome, List.head?_eq_some_head hsome⟩

/-- A network has cycles exactly if some rule comes to call itself on its left. -/
theorem Sound.cycles_iff {network : Network} (h : network.Sound) :
    network.cycles ≠ [] ↔ ∃ rule, Relation.TransGen network.CallsLeft rule rule := by
  constructor
  · intro hne
    obtain ⟨hreal, -⟩ := honest_of_rules h.ruled network.ruleStarts.toList
      (fun start hstart => Array.mem_iff_getElem?.mp (Array.mem_toList_iff.mp hstart))
      (show ∀ cycle ∈ ({} : Trace).cycles, network.Real cycle from nofun) rfl
      (show network.traceRules = _ from rfl)
    obtain ⟨cycle, hcycle⟩ := List.exists_mem_of_ne_nil _ hne
    obtain ⟨a, ha⟩ := List.exists_mem_of_ne_nil _ (hreal cycle hcycle).nonempty
    exact ⟨a, (hreal cycle hcycle).linked a ha a ha⟩
  · rintro ⟨rule, hcalls⟩ hnil
    obtain ⟨start, target, hstart, htarget, hcalls⟩ := leftCall_of_callsLeft hcalls
    obtain rfl : start = target := Option.some.inj (hstart.symm.trans htarget)
    exact not_leftRecursive hnil hstart hcalls

/-- The trace of the rules of a grammar comes to an end within the network. It finds cycles
exactly if some rule comes to call itself on its left, and what it finds are different rules that
all come to call each other and themselves so. -/
theorem cycles_exact {grammar : Grammar} (hg : grammar.Built) {vocabulary : Vocabulary}
    (hv : vocabulary.Fits) (kind : NetworkKind) {network : Network}
    (hnetwork : network = ofGrammar grammar vocabulary kind) :
    (∀ fuel, network.traceBound ≤ fuel → ∀ (start : Nat) (trace : Trace), trace.visited = [] →
      network.traceFrom fuel [start] start trace =
        network.traceFrom network.traceBound [start] start trace) ∧
      network.traceRules.lost = false ∧
      (network.cycles ≠ [] ↔ ∃ rule, Relation.TransGen network.CallsLeft rule rule) ∧
      ∀ cycle ∈ network.cycles, cycle.Nodup ∧ ∀ a ∈ cycle, ∀ b ∈ cycle,
        Relation.TransGen network.CallsLeft a a ∧ Relation.TransGen network.CallsLeft a b := by
  obtain ⟨hsound, -⟩ := sound_ofGrammar hg.steady.numbered hv kind
  rw [← hnetwork] at hsound
  have hruled := hsound.ruled
  obtain ⟨hreal, hkept⟩ := honest_of_rules hruled network.ruleStarts.toList
    (fun start hstart => Array.mem_iff_getElem?.mp (Array.mem_toList_iff.mp hstart))
    (show ∀ cycle ∈ ({} : Trace).cycles, network.Real cycle from nofun) rfl
    (show network.traceRules = _ from rfl)
  refine ⟨fun fuel hfuel start trace hvisited => ?_, hkept, hsound.cycles_iff,
    fun cycle hcycle => ⟨(hreal cycle hcycle).nodup, fun a ha b hb => ?_⟩⟩
  · exact traceFrom_fuel hfuel _ _ _ (by rw [hvisited]; exact network.pathsLeft_le _)
  · exact ⟨(hreal cycle hcycle).linked a ha a ha, (hreal cycle hcycle).linked a ha b hb⟩

/-- Two rules that call each other, one of them behind a token that may be missing. -/
theorem cycles_exact_mutual :
    ∃ (grammar : Grammar) (report : Report),
      Grammar.gather .empty "T.g" "parser grammar T; a : b A | C ; b : D? a ; c : a ;" =
        (some grammar, report) ∧
      let network := ofGrammar grammar (Vocabulary.ofGrammar grammar).1 .parser
      network.cycles = [[0, 1]] ∧ (∃ rule, Relation.TransGen network.CallsLeft rule rule) ∧
        Relation.TransGen network.CallsLeft 0 1 ∧ Relation.TransGen network.CallsLeft 1 0 := by
  have hgood :
      (Grammar.gather .empty "T.g" "parser grammar T; a : b A | C ; b : D? a ; c : a ;").1.any
        fun grammar =>
          let vocabulary := (Vocabulary.ofGrammar grammar).1
          let network := ofGrammar grammar vocabulary .parser
          vocabulary.nextType ≤ Text.maxInt32 && network.cycles == [[0, 1]] := by
    decide +kernel
  obtain ⟨grammar, hgrammar, hgood⟩ := (Option.any_eq_true _ _).mp hgood
  obtain ⟨hsize, hcycles⟩ : _ ∧ _ := by simpa using hgood
  obtain ⟨report, hgather⟩ : ∃ report,
      Grammar.gather .empty "T.g" "parser grammar T; a : b A | C ; b : D? a ; c : a ;" =
        (some grammar, report) :=
    ⟨_, Prod.ext hgrammar rfl⟩
  obtain ⟨-, -, hiff, hreal⟩ := cycles_exact (.gathered hgather)
    ((Vocabulary.below_ofGrammar grammar).fits hsize).1 .parser rfl
  have hcycle := (hreal [0, 1] (by rw [hcycles]; exact List.mem_singleton_self _)).2
  refine ⟨grammar, _, hgather, hcycles, hiff.mp (by rw [hcycles]; exact nofun), ?_, ?_⟩
  · exact (hcycle 0 (by decide) 1 (by decide)).2
  · exact (hcycle 1 (by decide) 0 (by decide)).2

/-! ## Rules without a cycle

Not every rule that calls itself on its left is in a cycle that is found. A call of a rule that is
being traced is not stepped over, so what is called behind it may be missed from every start. But
some cycle is found on each ring of left calls. -/

/-- Every rule that comes to call itself on its left calls the rules of some cycle so, all of them,
and is called by them. -/
theorem exists_cycle_of_ring {grammar : Grammar} (hg : grammar.Built) {vocabulary : Vocabulary}
    (hv : vocabulary.Fits) (kind : NetworkKind) {network : Network}
    (hnetwork : network = ofGrammar grammar vocabulary kind) {rule : Nat}
    (hring : Relation.TransGen network.CallsLeft rule rule) :
    ∃ cycle ∈ network.cycles, cycle ≠ [] ∧ ∀ other ∈ cycle,
      Relation.TransGen network.CallsLeft rule other ∧
        Relation.TransGen network.CallsLeft other rule := by
  obtain ⟨hsound, -⟩ := sound_ofGrammar hg.steady.numbered hv kind
  rw [← hnetwork] at hsound
  have hruled := hsound.ruled
  obtain ⟨hreal, -⟩ := honest_of_rules hruled network.ruleStarts.toList
    (fun start hstart => Array.mem_iff_getElem?.mp (Array.mem_toList_iff.mp hstart))
    (show ∀ cycle ∈ ({} : Trace).cycles, network.Real cycle from nofun) rfl
    (show network.traceRules = _ from rfl)
  obtain ⟨start, target, hstart, htarget, hcalls⟩ := leftCall_of_callsLeft hring
  obtain rfl : start = target := Option.some.inj (hstart.symm.trans htarget)
  obtain ⟨s, hto, hback, id, callee, precedence, follow, ht, cycle, hcycle, hcallee⟩ :=
    exists_met hstart hcalls
  have hs := hruled.start_of_call ht
  have hlinked := (hreal cycle hcycle).linked
  refine ⟨cycle, hcycle, (hreal cycle hcycle).nonempty, fun other hother => ⟨?_, ?_⟩⟩
  · exact (hruled.callsLeft hstart hs hto).trans (hlinked callee hcallee other hother)
  · exact (hlinked other hother callee hcallee).trans (hruled.callsLeft hs hstart hback)

theorem inner_of_any {network : Network} {id : Nat} {t : Transition}
    (h : ((network.state? id).any fun state =>
      state.kind != .ruleStop && state.transitions.contains t) = true) : network.Inner id t := by
  obtain ⟨state, hstate, h⟩ := (Option.any_eq_true _ _).mp h
  simp only [Bool.and_eq_true, bne_iff_ne, List.contains_iff_mem] at h
  exact ⟨state, hstate, h.1, h.2⟩

theorem isStop_of_any {network : Network} {id : Nat}
    (h : (network.state? id).any (·.kind == .ruleStop) = true) : network.IsStop id := by
  obtain ⟨state, hstate, h⟩ := (Option.any_eq_true _ _).mp h
  exact ⟨state, hstate, beq_iff_eq.mp h⟩

/-- A grammar of three rules on one ring: r calls b, and b calls r behind c, which can be stepped over
as b itself can. The trace finds b and c. -/
theorem callsLeft_ring :
    ∃ (grammar : Grammar) (report : Report),
      Grammar.gather .empty "T.g" "parser grammar T; r : b ; b : c r | ; c : b ;" =
        (some grammar, report) ∧ (Vocabulary.ofGrammar grammar).1.Fits ∧
      let network := ofGrammar grammar (Vocabulary.ofGrammar grammar).1 .parser
      network.cycles = [[1, 2]] ∧ Relation.TransGen network.CallsLeft 0 0 := by
  have hgood : (Grammar.gather .empty "T.g"
      "parser grammar T; r : b ; b : c r | ; c : b ;").1.any fun grammar =>
        let vocabulary := (Vocabulary.ofGrammar grammar).1
        let network := ofGrammar grammar vocabulary .parser
        vocabulary.nextType ≤ Text.maxInt32 && network.cycles == [[1, 2]] &&
          network.ruleStarts == #[0, 2, 4] &&
          [3, 5].all (fun id => (network.state? id).any (·.kind == .ruleStop)) &&
          [(0, .epsilon 6), (6, .rule 2 1 0 7), (2, .epsilon 14), (14, .epsilon 8),
            (8, .rule 4 2 0 9), (4, .epsilon 16), (16, .rule 2 1 0 17), (17, .epsilon 5),
            (14, .epsilon 12), (12, .epsilon 13), (13, .epsilon 15), (15, .epsilon 3),
            (9, .epsilon 10), (10, .rule 0 0 0 11)].all fun ((id, t) : Nat × Transition) =>
              (network.state? id).any fun state =>
                state.kind != .ruleStop && state.transitions.contains t := by
    decide +kernel
  obtain ⟨grammar, hgrammar, hgood⟩ := (Option.any_eq_true _ _).mp hgood
  dsimp only at hgood
  simp only [Bool.and_eq_true, decide_eq_true_eq, beq_iff_eq] at hgood
  obtain ⟨⟨⟨⟨hsize, hcycles⟩, hstarts⟩, hstops⟩, hinner⟩ := hgood
  refine ⟨grammar, _, Prod.ext hgrammar rfl, ((Vocabulary.below_ofGrammar grammar).fits hsize).1,
    hcycles, ?_⟩
  generalize ofGrammar grammar (Vocabulary.ofGrammar grammar).1 .parser = network at *
  have hinner := fun id t h => inner_of_any (List.all_eq_true.mp hinner (id, t) h)
  have hstop := fun id h => isStop_of_any (List.all_eq_true.mp hstops id h)
  have hpass : ∀ {start id next}, network.Silent start id → network.Inner id (.epsilon next) →
      network.Silent start next := fun hs ht => hs.pass ht rfl rfl
  -- the way through b, the way through c around b, and the way to r around c
  have hb : network.Silent 2 3 := hpass (hpass (hpass (hpass (hpass (.refl 2)
    (hinner 2 (.epsilon 14) (by decide))) (hinner 14 (.epsilon 12) (by decide)))
    (hinner 12 (.epsilon 13) (by decide))) (hinner 13 (.epsilon 15) (by decide)))
    (hinner 15 (.epsilon 3) (by decide))
  have hc : network.Silent 4 5 := hpass (.around (hpass (.refl 4)
    (hinner 4 (.epsilon 16) (by decide))) (hinner 16 (.rule 2 1 0 17) (by decide)) hb
    (hstop 3 (by decide))) (hinner 17 (.epsilon 5) (by decide))
  have hr : network.Silent 2 10 := hpass (.around (hpass (hpass (.refl 2)
    (hinner 2 (.epsilon 14) (by decide))) (hinner 14 (.epsilon 8) (by decide)))
    (hinner 8 (.rule 4 2 0 9) (by decide)) hc (hstop 5 (by decide)))
    (hinner 9 (.epsilon 10) (by decide))
  have hrb : network.CallsLeft 0 1 := ⟨0, 2, by rw [hstarts]; rfl, by rw [hstarts]; rfl, 6, 1, 0, 7,
    hpass (.refl 0) (hinner 0 (.epsilon 6) (by decide)), hinner 6 (.rule 2 1 0 7) (by decide)⟩
  have hbr : network.CallsLeft 1 0 := ⟨2, 0, by rw [hstarts]; rfl, by rw [hstarts]; rfl, 10, 0, 0,
    11, hr, hinner 10 (.rule 0 0 0 11) (by decide)⟩
  exact (Relation.TransGen.single hrb).tail hbr

/-- The two rules that make up the only cycle are both called by the first rule, and call it. -/
theorem exists_cycle_of_ring_three :
    ∃ (grammar : Grammar) (report : Report),
      Grammar.gather .empty "T.g" "parser grammar T; r : b ; b : c r | ; c : b ;" =
        (some grammar, report) ∧
      let network := ofGrammar grammar (Vocabulary.ofGrammar grammar).1 .parser
      Relation.TransGen network.CallsLeft 0 0 ∧ ∃ cycle ∈ network.cycles, cycle ≠ [] ∧
        ∀ other ∈ cycle, Relation.TransGen network.CallsLeft 0 other ∧
          Relation.TransGen network.CallsLeft other 0 := by
  obtain ⟨grammar, report, hgather, hfits, -, hring⟩ := callsLeft_ring
  exact ⟨grammar, report, hgather, hring,
    exists_cycle_of_ring (.gathered hgather) hfits .parser rfl hring⟩

/-- The first rule itself is in no cycle. -/
theorem not_mem_cycles_ring :
    ∃ (grammar : Grammar) (report : Report),
      Grammar.gather .empty "T.g" "parser grammar T; r : b ; b : c r | ; c : b ;" =
        (some grammar, report) ∧
      let network := ofGrammar grammar (Vocabulary.ofGrammar grammar).1 .parser
      Relation.TransGen network.CallsLeft 0 0 ∧ ∀ cycle ∈ network.cycles, 0 ∉ cycle := by
  obtain ⟨grammar, report, hgather, -, hcycles, hring⟩ := callsLeft_ring
  refine ⟨grammar, report, hgather, hring, ?_⟩
  rw [hcycles]
  decide

end Network

end GrammarCompiler
