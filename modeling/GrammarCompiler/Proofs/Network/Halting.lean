import GrammarCompiler.Proofs.Network.Search
import Mathlib.Logic.Function.Iterate

/-!
# Every search halts

A search is a run of a machine that takes one task after another: to enter a state, or to take a
transition (`Task.perform`). Nothing in the machine counts down. It halts on every network, left
recursion and misleading rule numbers included, and what it has found then is what the search
computes, so the bound of the search is never used up (`look_halts`).

A call makes the stack longer by one, and one more rule is being called. The way back makes the
stack shorter by one, and at most one rule less is being called: none, if the end of a rule is not
that of one of them. So the stack is at no time longer than it was in the beginning and the rules
that are being called (`Frame`). These are different from each other, which leaves finitely many
configurations, and none is entered twice.
-/

namespace GrammarCompiler

namespace Network

/-! ## The machine -/

/-- What a search does next. The stack and the rules that are being called are those at the time
of the task. -/
inductive Task where
  | enter (id : Nat) (stack called : List Nat)
  | take (t : Transition) (stack called : List Nat)

namespace Task

def stack : Task → List Nat
  | enter _ stack _ | take _ stack _ => stack

def called : Task → List Nat
  | enter _ _ called | take _ _ called => called

/-- The tasks behind a state that has been entered: its transitions, or the way back to the
caller. -/
def onward (state : State) (stack called : List Nat) : List Task :=
  match stack with
  | back :: outer =>
    if state.kind = .ruleStop then [enter back outer (called.erase state.rule)]
    else state.transitions.map (take · stack called)
  | [] => state.transitions.map (take · stack called)

end Task

/-- A search under way. -/
structure Progress where
  /-- What is left to do, the next task first. -/
  tasks : List Task
  search : Search

def Task.perform (network : Network) (mode : LookMode) (search : Search) : Task → Progress
  | .enter id stack called =>
    if search.busy.contains (id, stack) then ⟨[], search⟩
    else
      let search := { search with busy := search.busy.insert (id, stack) }
      match network.state? id with
      | none => ⟨[], { search with lost := true }⟩
      | some state =>
        match mode.ending? id state stack with
        | some symbol => ⟨[], search.add symbol⟩
        | none => ⟨onward state stack called, search⟩
  | .take t stack called =>
    match t with
    | .rule target rule _ follow =>
      if called.contains rule then ⟨[], search⟩
      else ⟨[.enter target (follow :: stack) (rule :: called)], search⟩
    | t =>
      if t.isPredicate && !mode.throughPredicates then ⟨[], search.add Symbol.invalid⟩
      else if t.isEpsilon then ⟨[.enter t.target stack called], search⟩
      else ⟨[], search.addAll (network.readBy t)⟩

section Perform

variable (network : Network) (mode : LookMode) (search : Search) (stack called : List Nat)

/-- What becomes of a transition, in the machine and in the search: something is noted at most, or
it is passed, or a rule is called. -/
theorem perform_take (t : Transition) :
    (∃ look, (Task.take t stack called).perform network mode search = ⟨[], { search with look }⟩ ∧
      ∀ fuel, network.visitStep mode fuel stack called search t = { search with look }) ∨
    ((Task.take t stack called).perform network mode search =
        ⟨[.enter t.target stack called], search⟩ ∧
      ∀ fuel, network.visitStep mode fuel stack called search t =
        network.visit mode fuel t.target stack called search) ∨
    ∃ target rule precedence follow, t = .rule target rule precedence follow ∧ rule ∉ called ∧
      (Task.take t stack called).perform network mode search =
        ⟨[.enter target (follow :: stack) (rule :: called)], search⟩ ∧
      ∀ fuel, network.visitStep mode fuel stack called search t =
        network.visit mode fuel target (follow :: stack) (rule :: called) search := by
  cases hcall : t.isCall with
  | true =>
      cases t with
      | rule target rule precedence follow =>
          simp only [Task.perform, visitStep]
          by_cases hold : called.contains rule = true
          · exact .inl ⟨search.look, by rw [if_pos hold], fun _ => if_pos hold⟩
          · exact .inr (.inr ⟨target, rule, precedence, follow, rfl,
              fun hin => hold (List.contains_iff_mem.mpr hin), if_neg hold, fun _ => if_neg hold⟩)
      | _ => cases hcall
  | false =>
      have hperform : (Task.take t stack called).perform network mode search =
          if t.isPredicate && !mode.throughPredicates then ⟨[], search.add Symbol.invalid⟩
          else if t.isEpsilon then ⟨[.enter t.target stack called], search⟩
          else ⟨[], search.addAll (network.readBy t)⟩ := by
        cases t with
        | rule _ _ _ _ => cases hcall
        | _ => rfl
      simp only [hperform, visitStep_of_not_call hcall]
      by_cases hborder : (t.isPredicate && !mode.throughPredicates) = true
      · exact .inl ⟨_, if_pos hborder, fun _ => if_pos hborder⟩
      · simp only [if_neg hborder]
        by_cases heps : t.isEpsilon = true
        · exact .inr (.inl ⟨if_pos heps, fun _ => if_pos heps⟩)
        · exact .inl ⟨_, if_neg heps, fun _ => if_neg heps⟩

/-- What becomes of a state, in the machine and in the search: it was entered before, or it is
entered, and then it is missing, or the search ends there at most noting something, or it goes
on. -/
theorem perform_enter (id : Nat) :
    ((id, stack) ∈ search.busy ∧
      (Task.enter id stack called).perform network mode search = ⟨[], search⟩ ∧
      ∀ fuel, network.visit mode (fuel + 1) id stack called search = search) ∨
    ((id, stack) ∉ search.busy ∧ ∃ entered : Search,
      entered.busy = search.busy.insert (id, stack) ∧
        (entered.lost = search.lost ∨ network.state? id = none) ∧
        (((Task.enter id stack called).perform network mode search = ⟨[], entered⟩ ∧
            ∀ fuel, network.visit mode (fuel + 1) id stack called search = entered) ∨
          ∃ state, network.state? id = some state ∧
            (Task.enter id stack called).perform network mode search =
              ⟨Task.onward state stack called, entered⟩ ∧
            ∀ fuel, network.visit mode (fuel + 1) id stack called search =
              network.visitState mode fuel state stack called entered)) := by
  simp only [visit_succ, Task.perform]
  by_cases hold : search.busy.contains (id, stack) = true
  · exact .inl ⟨Std.HashSet.contains_iff_mem.mp hold, if_pos hold, fun _ => if_pos hold⟩
  · refine .inr ⟨fun hin => hold (Std.HashSet.contains_iff_mem.mpr hin), ?_⟩
    simp only [if_neg hold]
    cases hstate : network.state? id with
    | none => exact ⟨_, rfl, .inr rfl, .inl ⟨rfl, fun _ => rfl⟩⟩
    | some state =>
        cases hending : mode.ending? id state stack with
        | some symbol =>
            simp only [hending]
            exact ⟨Search.add { search with busy := search.busy.insert (id, stack) } symbol, rfl,
              .inl rfl, .inl ⟨rfl, fun _ => rfl⟩⟩
        | none =>
            simp only [hending]
            exact ⟨{ search with busy := search.busy.insert (id, stack) }, rfl, .inl rfl,
              .inr ⟨state, rfl, rfl, fun _ => rfl⟩⟩

/-- A task enters one configuration at most, with its own stack. -/
theorem busy_perform (task : Task) :
    (task.perform network mode search).search.busy = search.busy ∨
      ∃ id, (task.perform network mode search).search.busy =
        search.busy.insert (id, task.stack) := by
  cases task with
  | enter id stack called =>
      rcases perform_enter network mode search stack called id with
        ⟨-, hperform, -⟩ | ⟨-, entered, hbusy, -, ⟨hperform, -⟩ | ⟨state, -, hperform, -⟩⟩ <;>
        rw [hperform]
      · exact .inl rfl
      · exact .inr ⟨id, hbusy⟩
      · exact .inr ⟨id, hbusy⟩
  | take t stack called =>
      rcases perform_take network mode search stack called t with
        ⟨look, hperform, -⟩ | ⟨hperform, -⟩ | ⟨_, _, _, _, -, -, hperform, -⟩ <;>
        exact .inl (by rw [hperform])

end Perform

/-- One step of a search. Without tasks it stands still. -/
def advance (network : Network) (mode : LookMode) : Progress → Progress
  | ⟨[], search⟩ => ⟨[], search⟩
  | ⟨task :: tasks, search⟩ =>
    let p := task.perform network mode search
    ⟨p.tasks ++ tasks, p.search⟩

def Progress.start (id : Nat) (stack : List Nat) : Progress :=
  ⟨[.enter id stack []], {}⟩

/-- A search comes to an end with a result. No stack is ever longer than the one that it began with
and the rules that are called in the network, neither that of a task nor one that a state was
entered with. -/
structure Halts (network : Network) (mode : LookMode) (id : Nat) (stack : List Nat)
    (result : Search) : Prop where
  ends : ∃ n, (network.advance mode)^[n] (.start id stack) = ⟨[], result⟩
  bounded : ∀ n, ∀ task ∈ ((network.advance mode)^[n] (.start id stack)).tasks,
    task.stack.length ≤ stack.length + network.calledRules.card
  entered : ∀ c ∈ result.busy, c.2.length ≤ stack.length + network.calledRules.card

/-! ## Frames -/

section Frames

variable (network : Network) (context : List Nat)

def returns : Finset Nat :=
  network.follows ∪ context.toFinset

/-- What holds of a stack and of the rules that are being called, in a search that began with the
stack `context`. -/
structure Frame (stack called : List Nat) : Prop where
  returns : ∀ x ∈ stack, x ∈ network.returns context
  nodup : called.Nodup
  calledRules : ∀ rule ∈ called, rule ∈ network.calledRules
  length_le : stack.length ≤ context.length + called.length

/-- The states that a search can come to. -/
def within (start : Nat) : Finset Nat :=
  network.places start ∪ context.toFinset

/-- The configurations that a search can come to. -/
def room (start : Nat) : Finset Config :=
  network.within context start ×ˢ
    stacksUpTo (network.returns context) (context.length + network.calledRules.card)

theorem card_room_lt (start : Nat) :
    (network.room context start).card < network.visitBound context := by
  have hcontext : context.toFinset.card ≤ context.length := List.toFinset_card_le _
  have hwithin : (network.within context start).card ≤
      network.transitions.length + network.callCount + context.length + 1 := by
    have h := Finset.card_union_le (network.places start) context.toFinset
    have hplaces := network.card_places_le start
    unfold within
    omega
  have hreturns : (network.returns context).card ≤ network.callCount + context.length := by
    have h := Finset.card_union_le network.follows context.toFinset
    have hfollows := network.card_follows_le
    unfold returns
    omega
  have hdepth : context.length + network.calledRules.card ≤ network.callCount + context.length := by
    have h := network.card_calledRules_le
    omega
  have hstacks : (stacksUpTo (network.returns context)
      (context.length + network.calledRules.card)).card ≤
        (network.callCount + context.length + 1) ^ (network.callCount + context.length) :=
    (card_stacksUpTo_le hreturns _).trans (Nat.pow_le_pow_right (Nat.succ_pos _) hdepth)
  unfold room visitBound
  rw [Finset.card_product]
  exact Nat.lt_succ_of_le (Nat.mul_le_mul hwithin hstacks)

end Frames

namespace Frame

variable {network : Network} {context stack called : List Nat}

theorem base (network : Network) (context : List Nat) : network.Frame context context [] :=
  ⟨fun _ hx => Finset.mem_union_right _ (List.mem_toFinset.mpr hx), .nil, nofun, Nat.le_refl _⟩

/-- A stack is no longer than the one in the beginning and the rules that are called. -/
theorem depth_le (h : network.Frame context stack called) :
    stack.length ≤ context.length + network.calledRules.card := by
  have hcard : called.length ≤ network.calledRules.card := by
    rw [← List.toFinset_card_of_nodup h.nodup]
    exact Finset.card_le_card fun rule hrule => h.calledRules rule (List.mem_toFinset.mp hrule)
  have hlength := h.length_le
  omega

theorem mem_room (h : network.Frame context stack called) {start id : Nat}
    (hid : id ∈ network.within context start) : (id, stack) ∈ network.room context start :=
  Finset.mem_product.mpr ⟨hid, mem_stacksUpTo h.returns h.depth_le⟩

theorem call (h : network.Frame context stack called) {target rule follow : Nat} {precedence : Int}
    (ht : .rule target rule precedence follow ∈ network.transitions) (hnew : rule ∉ called) :
    network.Frame context (follow :: stack) (rule :: called) := by
  have hfollow : follow ∈ network.follows :=
    List.mem_toFinset.mpr (List.mem_filterMap.mpr ⟨_, ht, rfl⟩)
  have hrule : rule ∈ network.calledRules :=
    List.mem_toFinset.mpr (List.mem_filterMap.mpr ⟨_, ht, rfl⟩)
  refine ⟨List.forall_mem_cons.mpr ⟨Finset.mem_union_left _ hfollow, h.returns⟩,
    List.nodup_cons.mpr ⟨hnew, h.nodup⟩, List.forall_mem_cons.mpr ⟨hrule, h.calledRules⟩, ?_⟩
  have hlength := h.length_le
  simp only [List.length_cons]
  omega

/-- The way back forgets at most one rule. -/
theorem back {back : Nat} {outer : List Nat} (h : network.Frame context (back :: outer) called)
    (rule : Nat) : network.Frame context outer (called.erase rule) := by
  refine ⟨fun x hx => h.returns x (List.mem_cons_of_mem _ hx), h.nodup.erase rule,
    fun r hr => h.calledRules r (List.mem_of_mem_erase hr), ?_⟩
  have hlength := h.length_le
  have herase : called.length ≤ (called.erase rule).length + 1 := by
    rw [List.length_erase]
    split <;> omega
  rw [List.length_cons] at hlength
  omega

end Frame

/-! ## Every task has a frame -/

section Fits

variable (network : Network) (context : List Nat) (start : Nat)

/-- A task leads to where a search can come to. -/
def Task.Fits : Task → Prop
  | .enter id stack called => id ∈ network.within context start ∧ network.Frame context stack called
  | .take t stack called => t ∈ network.transitions ∧ network.Frame context stack called

def Progress.Fits (p : Progress) : Prop :=
  ∀ task ∈ p.tasks, task.Fits network context start

variable {network context start} {mode : LookMode} {task : Task} {search : Search} {p : Progress}

theorem Task.Fits.frame (h : task.Fits network context start) :
    network.Frame context task.stack task.called := by
  cases task with
  | enter id stack called => exact h.2
  | take t stack called => exact h.2

theorem target_mem_within {t : Transition} (h : t ∈ network.transitions) :
    t.target ∈ network.within context start :=
  Finset.mem_union_left _ (Finset.mem_insert_of_mem (Finset.mem_union_left _
    (List.mem_toFinset.mpr (List.mem_map_of_mem h))))

theorem returns_subset_within : network.returns context ⊆ network.within context start :=
  Finset.union_subset_union_left fun _ hx =>
    Finset.mem_insert_of_mem (Finset.mem_union_right _ hx)

theorem Task.Fits.pass {t : Transition} {stack called : List Nat}
    (h : (take t stack called).Fits network context start) :
    (enter t.target stack called).Fits network context start :=
  ⟨target_mem_within h.1, h.2⟩

theorem Task.Fits.call {target rule follow : Nat} {precedence : Int} {stack called : List Nat}
    (h : (take (.rule target rule precedence follow) stack called).Fits network context start)
    (hnew : rule ∉ called) :
    (enter target (follow :: stack) (rule :: called)).Fits network context start :=
  ⟨target_mem_within h.1, h.2.call h.1 hnew⟩

theorem Frame.fits_back {back : Nat} {outer called : List Nat}
    (h : network.Frame context (back :: outer) called) (rule : Nat) :
    (Task.enter back outer (called.erase rule)).Fits network context start :=
  ⟨returns_subset_within (h.returns back (List.mem_cons_self ..)), h.back rule⟩

/-- What comes behind a state fits. -/
theorem fits_onward {id : Nat} {state : State} (hstate : network.state? id = some state)
    {stack called : List Nat} (h : network.Frame context stack called) :
    ∀ task ∈ Task.onward state stack called, task.Fits network context start := by
  have hall : ∀ task ∈ state.transitions.map (Task.take · stack called),
      task.Fits network context start := by
    intro task htask
    obtain ⟨t, ht, rfl⟩ := List.mem_map.mp htask
    exact ⟨mem_transitions hstate ht, h⟩
  cases stack with
  | nil => exact hall
  | cons back outer =>
      rw [Task.onward]
      split
      · exact List.forall_mem_singleton.mpr (h.fits_back state.rule)
      · exact hall

theorem fits_nil (search : Search) : Progress.Fits network context start ⟨[], search⟩ := nofun

/-- Tasks that fit make tasks that fit. -/
theorem Task.Fits.perform (h : task.Fits network context start) :
    (task.perform network mode search).Fits network context start := by
  cases task with
  | enter id stack called =>
      rcases perform_enter network mode search stack called id with
        ⟨-, hperform, -⟩ | ⟨-, entered, -, -, ⟨hperform, -⟩ | ⟨state, hstate, hperform, -⟩⟩ <;>
        rw [hperform]
      · exact fits_nil _
      · exact fits_nil _
      · exact fits_onward hstate h.2
  | take t stack called =>
      rcases perform_take network mode search stack called t with
        ⟨look, hperform, -⟩ | ⟨hperform, -⟩ |
          ⟨target, rule, precedence, follow, rfl, hnew, hperform, -⟩ <;>
        rw [hperform]
      · exact fits_nil _
      · exact List.forall_mem_singleton.mpr h.pass
      · exact List.forall_mem_singleton.mpr (h.call hnew)

theorem Progress.Fits.advance (h : p.Fits network context start) :
    (network.advance mode p).Fits network context start := by
  obtain ⟨tasks, search⟩ := p
  cases tasks with
  | nil => exact h
  | cons task tasks =>
      obtain ⟨htask, htasks⟩ := List.forall_mem_cons.mp h
      exact List.forall_mem_append.mpr ⟨htask.perform, htasks⟩

variable (network context start) in
theorem fits_start : (Progress.start start context).Fits network context start :=
  List.forall_mem_singleton.mpr
    ⟨Finset.mem_union_left _ (Finset.mem_insert_self _ _), .base network context⟩

variable (network mode context start) in
/-- All tasks of a search fit, however far it has got. -/
theorem fits_iterate (n : Nat) :
    ((network.advance mode)^[n] (.start start context)).Fits network context start := by
  induction n with
  | zero => exact fits_start network context start
  | succ n ih =>
      rw [Function.iterate_succ_apply']
      exact ih.advance

variable (network mode context start) in
/-- The stacks with which states are entered are bounded as those of the tasks. -/
theorem entered_iterate (n : Nat) :
    ∀ c ∈ ((network.advance mode)^[n] (.start start context)).search.busy,
      c.2.length ≤ context.length + network.calledRules.card := by
  induction n with
  | zero => exact fun c hc => absurd hc Std.HashSet.not_mem_empty
  | succ n ih =>
      have hfits := fits_iterate network context start mode n
      rw [Function.iterate_succ_apply']
      generalize (network.advance mode)^[n] (.start start context) = p at hfits ih
      obtain ⟨tasks, search⟩ := p
      cases tasks with
      | nil => exact ih
      | cons task tasks =>
          intro c hc
          have hc : c ∈ (task.perform network mode search).search.busy := hc
          rcases busy_perform network mode search task with hbusy | ⟨id, hbusy⟩
          · exact ih c (hbusy ▸ hc)
          · rw [hbusy] at hc
            rcases Std.HashSet.mem_insert.mp hc with heq | hc
            · obtain rfl := beq_iff_eq.mp heq
              exact (hfits task (List.mem_cons_self ..)).frame.depth_le
            · exact ih c hc

end Fits

/-! ## The machine comes to an end -/

/-- The machine has done some tasks, whatever was to be done behind them. -/
structure Performs (network : Network) (mode : LookMode) (tasks : List Task)
    (before after : Search) : Prop where
  ends : ∀ rest, ∃ n, (network.advance mode)^[n] ⟨tasks ++ rest, before⟩ = ⟨rest, after⟩
  grows : ∀ d ∈ before.busy, d ∈ after.busy

section Performs

variable {network : Network} {mode : LookMode} {task : Task} {tasks tasks' : List Task}
  {search before after after' : Search}

theorem Performs.nil (search : Search) : network.Performs mode [] search search :=
  ⟨fun _ => ⟨0, rfl⟩, fun _ h => h⟩

theorem Performs.append (h : network.Performs mode tasks before after)
    (h' : network.Performs mode tasks' after after') :
    network.Performs mode (tasks ++ tasks') before after' := by
  refine ⟨fun rest => ?_, fun d hd => h'.grows d (h.grows d hd)⟩
  obtain ⟨n, hn⟩ := h.ends (tasks' ++ rest)
  obtain ⟨m, hm⟩ := h'.ends rest
  exact ⟨m + n, by rw [Function.iterate_add_apply, List.append_assoc, hn, hm]⟩

/-- A task is done with the tasks that it makes. -/
theorem Performs.of_perform
    (h : network.Performs mode (task.perform network mode before).tasks
      (task.perform network mode before).search after) :
    network.Performs mode [task] before after := by
  refine ⟨fun rest => ?_, fun d hd => h.grows d ?_⟩
  · obtain ⟨n, hn⟩ := h.ends rest
    exact ⟨n + 1, by rw [Function.iterate_succ_apply]; exact hn⟩
  · rcases busy_perform network mode before task with hbusy | ⟨id, hbusy⟩
    · exact hbusy ▸ hd
    · exact hbusy ▸ Std.HashSet.mem_insert.mpr (Or.inr hd)

end Performs

/-- What is to be shown of all searches with a given fuel. -/
def PerformsWith (network : Network) (mode : LookMode) (context : List Nat) (start fuel : Nat) :
    Prop :=
  ∀ id stack called search, (unentered (network.room context start) search).card ≤ fuel →
    (Task.enter id stack called).Fits network context start →
    network.Performs mode [.enter id stack called] search
      (network.visit mode fuel id stack called search)

section Step

variable {network : Network} {mode : LookMode} {context stack called : List Nat}
  {start fuel id : Nat} {search : Search}

theorem performs_take (ih : network.PerformsWith mode context start fuel)
    (hfuel : (unentered (network.room context start) search).card ≤ fuel) {t : Transition}
    (ht : (Task.take t stack called).Fits network context start) :
    network.Performs mode [.take t stack called] search
      (network.visitStep mode fuel stack called search t) := by
  apply Performs.of_perform
  rcases perform_take network mode search stack called t with
    ⟨look, hperform, hvisit⟩ | ⟨hperform, hvisit⟩ |
      ⟨target, rule, precedence, follow, rfl, hnew, hperform, hvisit⟩ <;>
    rw [hperform, hvisit]
  · exact .nil _
  · exact ih _ _ _ _ hfuel ht.pass
  · exact ih _ _ _ _ hfuel (ht.call hnew)

theorem performs_fold (ih : network.PerformsWith mode context start fuel)
    (hframe : network.Frame context stack called) {ts : List Transition}
    (hts : ∀ t ∈ ts, t ∈ network.transitions)
    (hfuel : (unentered (network.room context start) search).card ≤ fuel) :
    network.Performs mode (ts.map (.take · stack called)) search
      (ts.foldl (network.visitStep mode fuel stack called) search) := by
  induction ts generalizing search with
  | nil => exact .nil search
  | cons t ts ihts =>
      obtain ⟨ht, hts⟩ := List.forall_mem_cons.mp hts
      have hhead := performs_take ih hfuel ⟨ht, hframe⟩
      exact hhead.append (ihts hts ((unentered_mono hhead.grows).trans hfuel))

theorem performs_onward (ih : network.PerformsWith mode context start fuel) {state : State}
    (hstate : network.state? id = some state) (hframe : network.Frame context stack called)
    (hfuel : (unentered (network.room context start) search).card ≤ fuel) :
    network.Performs mode (Task.onward state stack called) search
      (network.visitState mode fuel state stack called search) := by
  have hall : network.Performs mode (state.transitions.map (.take · stack called)) search
      (state.transitions.foldl (network.visitStep mode fuel stack called) search) :=
    performs_fold ih hframe (fun t ht => mem_transitions hstate ht) hfuel
  cases stack with
  | nil => exact hall
  | cons back outer =>
      rw [Task.onward, visitState]
      split
      · exact ih _ _ _ _ hfuel (hframe.fits_back state.rule)
      · exact hall

end Step

/-- Fuel for the configurations that are left is enough. -/
theorem performsWith (network : Network) (mode : LookMode) (context : List Nat) (start fuel : Nat) :
    network.PerformsWith mode context start fuel := by
  induction fuel with
  | zero =>
      intro id stack called search hfuel hfits
      have hold := mem_busy_of_unentered (hfits.2.mem_room hfits.1) hfuel
      refine .of_perform ?_
      rw [Task.perform, if_pos (Std.HashSet.contains_iff_mem.mpr hold)]
      exact .nil search
  | succ fuel ih =>
      intro id stack called search hfuel hfits
      refine .of_perform ?_
      rcases perform_enter network mode search stack called id with
        ⟨-, hperform, hvisit⟩ | ⟨hnew, entered, hbusy, -, hgo⟩
      · rw [hperform, hvisit]
        exact .nil search
      · have hsame : unentered (network.room context start) entered =
            unentered (network.room context start)
              { search with busy := search.busy.insert (id, stack) } := by
          unfold unentered
          rw [hbusy]
        have hleft : (unentered (network.room context start) entered).card ≤ fuel := by
          have := unentered_insert (hfits.2.mem_room hfits.1) hnew
          rw [hsame]
          omega
        rcases hgo with ⟨hperform, hvisit⟩ | ⟨state, hstate, hperform, hvisit⟩ <;>
          rw [hperform, hvisit]
        · exact .nil entered
        · exact performs_onward ih hstate hfits.2 hleft

/-- A search halts with what it computes. -/
theorem halts_searchFrom (network : Network) (mode : LookMode) (id : Nat) (stack : List Nat) :
    network.Halts mode id stack (network.searchFrom mode id stack) := by
  have hfuel : (unentered (network.room stack id) {}).card ≤ network.visitBound stack :=
    (Finset.card_filter_le _ _).trans (Nat.le_of_lt (network.card_room_lt stack id))
  have hperforms : network.Performs mode [.enter id stack []] {}
      (network.searchFrom mode id stack) :=
    performsWith network mode stack id _ id stack [] {} hfuel
      (fits_start network stack id _ (List.mem_singleton_self _))
  obtain ⟨n, hn⟩ := hperforms.ends []
  have hend : (network.advance mode)^[n] (.start id stack) =
      ⟨[], network.searchFrom mode id stack⟩ := hn
  refine ⟨⟨n, hend⟩, fun n task htask =>
    (fits_iterate network stack id mode n task htask).frame.depth_le, ?_⟩
  have hentered := entered_iterate network stack id mode n
  rw [hend] at hentered
  exact hentered

/-! ## Nothing is lost -/

/-- Every transition leads to a state, and every caller goes on at one. -/
def Closed (network : Network) : Prop :=
  ∀ t ∈ network.transitions, t.target < network.size ∧ ∀ follow ∈ t.follow?, follow < network.size

section Closed

variable {network : Network} {context : List Nat} {start : Nat} {mode : LookMode} {search : Search}

/-- In a closed network a search comes to states only. -/
theorem Closed.lt_size (h : network.Closed) (hstart : start < network.size)
    (hcontext : ∀ x ∈ context, x < network.size) :
    ∀ x ∈ network.within context start, x < network.size := by
  intro x hx
  rcases Finset.mem_union.mp hx with hx | hx
  · rcases Finset.mem_insert.mp hx with rfl | hx
    · exact hstart
    · rcases Finset.mem_union.mp hx with hx | hx
      · obtain ⟨t, ht, rfl⟩ := List.mem_map.mp (List.mem_toFinset.mp hx)
        exact (h t ht).1
      · obtain ⟨t, ht, hfollow⟩ := List.mem_filterMap.mp (List.mem_toFinset.mp hx)
        exact (h t ht).2 x hfollow
  · exact hcontext x (List.mem_toFinset.mp hx)

theorem Task.Fits.lost_perform {task : Task} (h : task.Fits network context start)
    (hstates : ∀ x ∈ network.within context start, x < network.size) :
    (task.perform network mode search).search.lost = search.lost := by
  cases task with
  | enter id stack called =>
      have hlt : id < network.states.size := hstates id h.1
      have hsome : network.state? id ≠ none := by
        rw [state?, Array.getElem?_eq_getElem hlt]
        exact Option.some_ne_none _
      rcases perform_enter network mode search stack called id with
        ⟨-, hperform, -⟩ | ⟨-, entered, -, hlost, ⟨hperform, -⟩ | ⟨state, -, hperform, -⟩⟩ <;>
        rw [hperform]
      · exact hlost.resolve_right hsome
      · exact hlost.resolve_right hsome
  | take t stack called =>
      rcases perform_take network mode search stack called t with
        ⟨look, hperform, -⟩ | ⟨hperform, -⟩ | ⟨_, _, _, _, -, -, hperform, -⟩ <;>
        rw [hperform]

theorem lost_iterate (hstates : ∀ x ∈ network.within context start, x < network.size) (n : Nat) :
    ((network.advance mode)^[n] (.start start context)).search.lost = false := by
  induction n with
  | zero => rfl
  | succ n ih =>
      have hfits := fits_iterate network context start mode n
      rw [Function.iterate_succ_apply']
      generalize (network.advance mode)^[n] (.start start context) = p at hfits ih
      obtain ⟨tasks, search⟩ := p
      cases tasks with
      | nil => exact ih
      | cons task tasks =>
          exact ((hfits task (List.mem_cons_self ..)).lost_perform hstates).trans ih

theorem Halts.not_lost {result : Search} (h : network.Halts mode start context result)
    (hstates : ∀ x ∈ network.within context start, x < network.size) : result.lost = false := by
  obtain ⟨n, hn⟩ := h.ends
  have hlost : ((network.advance mode)^[n] (.start start context)).search.lost = false :=
    lost_iterate hstates n
  rw [hn] at hlost
  exact hlost

end Closed

/-- In a closed network every search for lookahead halts, from any state, up to any state and with
any stack of callers, and comes to states of the network only. -/
theorem look_halts {network : Network} (h : network.Closed) :
    (∀ id stop context, ∃ result,
        network.Halts (followMode stop context.isSome) id (context.getD []).reverse result ∧
          network.look id stop context = result.look ∧
          (id < network.size → (∀ x ∈ context.getD [], x < network.size) → result.lost = false)) ∧
      ∀ id state, network.state? id = some state →
        List.Forall₂ (fun t entry => ∃ result, network.Halts decisionMode t.target [] result ∧
          result.lost = false ∧ entry = result.alternative?)
          state.transitions (network.decisionLook id) := by
  refine ⟨fun id stop context => ?_, fun id state hstate => ?_⟩
  · have hhalts := network.halts_searchFrom (followMode stop context.isSome) id
      (context.getD []).reverse
    refine ⟨_, hhalts, rfl, fun hid hcontext => hhalts.not_lost (h.lt_size hid ?_)⟩
    exact fun x hx => hcontext x (List.mem_reverse.mp hx)
  · have hlook : network.decisionLook id = state.transitions.map fun t =>
        (network.searchFrom decisionMode t.target []).alternative? := by
      unfold decisionLook decisionSearches
      rw [hstate, List.map_map]
      rfl
    rw [hlook]
    refine List.forall₂_map_right_iff.mpr (List.forall₂_same.mpr fun t ht => ?_)
    have hhalts := network.halts_searchFrom decisionMode t.target []
    exact ⟨_, hhalts, hhalts.not_lost (h.lt_size (h t (mem_transitions hstate ht)).1 nofun), rfl⟩

/-- A rule calls itself at once, under two numbers that are not its own, and its end is said to be
that of one of them. -/
theorem look_halts_misnumbered :
    let network : Network :=
      { kind := .parser
        maxSymbol := 2
        states := #[
          { id := 0, kind := .ruleStart, rule := 0, transitions := [.rule 0 7 0 1, .epsilon 1] },
          { id := 1, kind := .basic, rule := 0,
            transitions := [.rule 0 5 0 2, .atom 2 1, .epsilon 2] },
          { id := 2, kind := .ruleStop, rule := 5, transitions := [.epsilon 1] }] }
    network.Closed ∧
      (∃ result, network.Halts (followMode none true) 0 [2, 1] result ∧
        network.look 0 none (some [1, 2]) = result.look ∧ result.lost = false) ∧
      ∃ state, network.state? 0 = some state ∧
        List.Forall₂ (fun t entry => ∃ result, network.Halts decisionMode t.target [] result ∧
          result.lost = false ∧ entry = result.alternative?)
          state.transitions (network.decisionLook 0) := by
  intro network
  have hclosed : network.Closed := by
    unfold Closed
    decide
  obtain ⟨hlook, hdecision⟩ := look_halts hclosed
  obtain ⟨result, hhalts, hsame, hlost⟩ := hlook 0 none (some [1, 2])
  exact ⟨hclosed, ⟨result, hhalts, hsame, hlost (by decide) (by decide)⟩, _, rfl,
    hdecision 0 _ rfl⟩

end Network

end GrammarCompiler
