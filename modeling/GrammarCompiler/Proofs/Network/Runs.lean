import GrammarCompiler.Proofs.Network.LeftCalls
import GrammarCompiler.Proofs.Network.Ways

/-!
# Runs of a network

A run moves from state to state and reads symbols. A call remembers where the caller goes on and
the precedence that it had been entered with; the end of a rule goes back there and nowhere else.

A run that begins and ends without callers is a path: each call on it comes back (`runs_iff_path`).
Paths are counted, so that what is proved of a path can be proved of the shorter ones inside it
first.
-/

namespace GrammarCompiler

namespace Network

/-! ## Runs with a stack -/

/-- Where a caller goes on, and the precedence that its rule was entered with. -/
structure Caller where
  follow : Nat
  entry : Int

/-- A state, the precedence that the rule was entered with, and the callers, innermost first. -/
structure Place where
  state : Nat
  entry : Int
  callers : List Caller

section Runs

variable (network : Network) (passes : Int → Int → Prop)

/-- Whether a transition that reads nothing and calls no rule may be taken. -/
def Passes (entry : Int) : Transition → Prop
  | .precedence _ demanded => passes entry demanded
  | _ => True

/-- A step of a run and what it reads. -/
inductive Move : Place → List Int → Place → Prop
  | pass {id : Nat} {entry : Int} {callers : List Caller} {t : Transition} :
    network.Inner id t → t.isEpsilon = true → t.isCall = false → Passes passes entry t →
      Move ⟨id, entry, callers⟩ [] ⟨t.target, entry, callers⟩
  | read {id : Nat} {entry : Int} {callers : List Caller} {t : Transition} {n : Int} :
    network.Inner id t → network.Reads t n →
      Move ⟨id, entry, callers⟩ [n] ⟨t.target, entry, callers⟩
  | call {id target rule follow : Nat} {entry precedence : Int} {callers : List Caller} :
    network.Inner id (.rule target rule precedence follow) →
      Move ⟨id, entry, callers⟩ [] ⟨target, precedence, ⟨follow, entry⟩ :: callers⟩
  | back {id : Nat} {entry : Int} {caller : Caller} {callers : List Caller} :
    network.IsStop id →
      Move ⟨id, entry, caller :: callers⟩ [] ⟨caller.follow, caller.entry, callers⟩

/-- A run and what it reads. -/
inductive Runs : Place → List Int → Place → Prop
  | done (place : Place) : Runs place [] place
  | step {a b c : Place} {u w : List Int} : Move network passes a u b → Runs b w c →
      Runs a (u ++ w) c

/-! ## Paths -/

/-- A run from one state to another at the same depth of calls, with the number of its
transitions. -/
inductive Path : Nat → Int → Nat → List Int → Nat → Prop
  | done (entry : Int) (id : Nat) : Path 0 entry id [] id
  | pass {k id goal : Nat} {entry : Int} {t : Transition} {w : List Int} :
    network.Inner id t → t.isEpsilon = true → t.isCall = false → Passes passes entry t →
    Path k entry t.target w goal → Path (k + 1) entry id w goal
  | read {k id goal : Nat} {entry n : Int} {t : Transition} {w : List Int} :
    network.Inner id t → network.Reads t n → Path k entry t.target w goal →
      Path (k + 1) entry id (n :: w) goal
  | call {j k id target rule follow stop goal : Nat} {entry precedence : Int} {u w : List Int} :
    network.Inner id (.rule target rule precedence follow) →
    Path j precedence target u stop → network.IsStop stop → Path k entry follow w goal →
      Path (j + k + 1) entry id (u ++ w) goal

variable {network passes}

theorem Runs.trans {a b c : Place} {u w : List Int} (h : Runs network passes a u b)
    (h' : Runs network passes b w c) : Runs network passes a (u ++ w) c := by
  induction h with
  | done => exact h'
  | step hmove _ ih =>
      rw [List.append_assoc]
      exact .step hmove (ih h')

/-- The callers of a path do not matter to it. -/
theorem Path.runs {k id goal : Nat} {entry : Int} {w : List Int}
    (h : Path network passes k entry id w goal) (callers : List Caller) :
    Runs network passes ⟨id, entry, callers⟩ w ⟨goal, entry, callers⟩ := by
  induction h generalizing callers with
  | done entry id => exact .done _
  | pass ht heps hcall hpass _ ih => exact .step (.pass ht heps hcall hpass) (ih callers)
  | read ht hreads _ ih => exact .step (.read ht hreads) (ih callers)
  | call ht _ hstop _ ihbody ihrest =>
      have hrun := Runs.step (.call ht) ((ihbody _).trans (.step (.back hstop) (ihrest callers)))
      rw [List.nil_append, List.nil_append] at hrun
      exact hrun

theorem Path.trans {j k id mid goal : Nat} {entry : Int} {u w : List Int}
    (h : Path network passes j entry id u mid) (h' : Path network passes k entry mid w goal) :
    Path network passes (j + k) entry id (u ++ w) goal := by
  induction h with
  | done =>
      rw [Nat.zero_add]
      exact h'
  | pass ht heps hcall hpass _ ih =>
      rw [Nat.add_right_comm]
      exact .pass ht heps hcall hpass (ih h')
  | read ht hreads _ ih =>
      rw [Nat.add_right_comm]
      exact .read ht hreads (ih h')
  | @call i k' id target rule follow stop goal entry precedence u w ht hbody hstop _ _ ih =>
      have hcount : i + k' + 1 + k = i + (k' + k) + 1 := by omega
      rw [List.append_assoc, hcount]
      exact .call ht hbody hstop (ih h')

/-- What is left of a run to the goal: a path to the end of each rule that is being called, and
one to the goal from where the outermost caller goes on. -/
def Unwinds (network : Network) (passes : Int → Int → Prop) (goal : Nat) (final : Int) :
    Nat → Int → List Caller → List Int → Prop
  | id, entry, [], w => entry = final ∧ ∃ k, Path network passes k entry id w goal
  | id, entry, caller :: callers, w => ∃ k stop u v, w = u ++ v ∧
    Path network passes k entry id u stop ∧ network.IsStop stop ∧
      Unwinds network passes goal final caller.follow caller.entry callers v

theorem Unwinds.prepend {goal id mid j : Nat} {final entry : Int} {callers : List Caller}
    {u w : List Int} (hpath : Path network passes j entry id u mid)
    (h : Unwinds network passes goal final mid entry callers w) :
    Unwinds network passes goal final id entry callers (u ++ w) := by
  cases callers with
  | nil =>
      obtain ⟨rfl, k, hrest⟩ := h
      exact ⟨rfl, _, hpath.trans hrest⟩
  | cons caller callers =>
      obtain ⟨k, stop, u', v, rfl, hrest, hstop, houter⟩ := h
      exact ⟨_, stop, u ++ u', v, (List.append_assoc ..).symm, hpath.trans hrest, hstop, houter⟩

theorem Move.unwinds {goal : Nat} {final : Int} {a b : Place} {u w : List Int}
    (hmove : Move network passes a u b)
    (h : Unwinds network passes goal final b.state b.entry b.callers w) :
    Unwinds network passes goal final a.state a.entry a.callers (u ++ w) := by
  cases hmove with
  | pass ht heps hcall hpass => exact h.prepend (.pass ht heps hcall hpass (.done ..))
  | read ht hreads => exact h.prepend (.read ht hreads (.done ..))
  | @call id target rule follow entry precedence callers ht =>
      obtain ⟨k, stop, u', v, rfl, hbody, hstop, houter⟩ := h
      have hcall : Path network passes (k + 0 + 1) entry id (u' ++ []) follow :=
        .call ht hbody hstop (.done entry follow)
      rw [List.append_nil] at hcall
      have hrest := Unwinds.prepend hcall houter
      exact hrest
  | back hstop => exact ⟨0, _, [], w, rfl, .done .., hstop, h⟩

/-- A run without callers at its ends is a path. -/
theorem runs_iff_path {id goal : Nat} {entry final : Int} {w : List Int} :
    Runs network passes ⟨id, entry, []⟩ w ⟨goal, final, []⟩ ↔
      entry = final ∧ ∃ k, Path network passes k entry id w goal := by
  constructor
  · intro h
    have hall : ∀ {a b : Place} {w : List Int}, Runs network passes a w b → b = ⟨goal, final, []⟩ →
        Unwinds network passes goal final a.state a.entry a.callers w := by
      intro a b w h
      induction h with
      | done place =>
          rintro rfl
          exact ⟨rfl, 0, .done ..⟩
      | step hmove _ ih => exact fun hb => hmove.unwinds (ih hb)
    exact hall h rfl
  · rintro ⟨rfl, k, h⟩
    exact h.runs []

/-! ## The first step of a path -/

theorem inner_iff_ways? {id : Nat} {t : Transition} :
    network.Inner id t ↔ ∃ reluctant ts, network.ways? id = some (reluctant, ts) ∧ t ∈ ts := by
  constructor
  · rintro ⟨state, hstate, hkind, ht⟩
    exact ⟨_, _, (ways?_eq_some _).mpr ⟨state, hstate, hkind, rfl⟩, ht⟩
  · rintro ⟨reluctant, ts, hways, ht⟩
    obtain ⟨state, hstate, hkind, heq⟩ := (ways?_eq_some _).mp hways
    exact ⟨state, hstate, hkind, by rw [(Prod.mk.inj heq).2]; exact ht⟩

theorem not_isStop_of_ways? {id : Nat} {ways : Bool × List Transition}
    (h : network.ways? id = some ways) : ¬network.IsStop id := by
  rintro ⟨state, hstate, hkind⟩
  obtain ⟨state', hstate', hkind', -⟩ := (ways?_eq_some _).mp h
  rw [hstate, Option.some.injEq] at hstate'
  exact hkind' (hstate' ▸ hkind)

/-- A path that begins with a transition. -/
inductive Along (network : Network) (passes : Int → Int → Prop) (entry : Int) (goal : Nat) :
    Nat → Transition → List Int → Prop
  | pass {k : Nat} {t : Transition} {w : List Int} : t.isEpsilon = true → t.isCall = false →
    Passes passes entry t → Path network passes k entry t.target w goal →
      Along network passes entry goal (k + 1) t w
  | read {k : Nat} {t : Transition} {n : Int} {w : List Int} : network.Reads t n →
    Path network passes k entry t.target w goal →
      Along network passes entry goal (k + 1) t (n :: w)
  | call {j k target rule follow stop : Nat} {precedence : Int} {u w : List Int} :
    Path network passes j precedence target u stop → network.IsStop stop →
    Path network passes k entry follow w goal →
      Along network passes entry goal (j + k + 1) (.rule target rule precedence follow) (u ++ w)

/-- A path to the end of a rule takes one of the transitions of the state it begins in. -/
theorem Path.first {k id goal : Nat} {entry : Int} {w : List Int}
    (h : Path network passes k entry id w goal) (hgoal : network.IsStop goal) {reluctant : Bool}
    {ts : List Transition} (hways : network.ways? id = some (reluctant, ts)) :
    ∃ t ∈ ts, Along network passes entry goal k t w := by
  have hmem : ∀ t, network.Inner id t → t ∈ ts := by
    intro t ht
    obtain ⟨_, _, hways', ht⟩ := inner_iff_ways?.mp ht
    rw [hways, Option.some.injEq] at hways'
    rw [(Prod.mk.inj hways').2]
    exact ht
  cases h with
  | done => exact absurd hgoal (not_isStop_of_ways? hways)
  | pass ht heps hcall hpass hrest => exact ⟨_, hmem _ ht, .pass heps hcall hpass hrest⟩
  | read ht hreads hrest => exact ⟨_, hmem _ ht, .read hreads hrest⟩
  | call ht hbody hstop hrest => exact ⟨_, hmem _ ht, .call hbody hstop hrest⟩

/-- A path does not leave the end of a rule. -/
theorem Path.eq_of_isStop {k id goal : Nat} {entry : Int} {w : List Int}
    (h : Path network passes k entry id w goal) (hid : network.IsStop id) : w = [] ∧ goal = id := by
  have hno : ∀ t, ¬network.Inner id t := by
    rintro t ht
    obtain ⟨_, _, hways, -⟩ := inner_iff_ways?.mp ht
    exact not_isStop_of_ways? hways hid
  cases h with
  | done => exact ⟨rfl, rfl⟩
  | pass ht | read ht | call ht => exact absurd ht (hno _)

theorem Along.epsilon {k target goal : Nat} {entry : Int} {w : List Int}
    (h : Along network passes entry goal k (.epsilon target) w) :
    ∃ k' < k, Path network passes k' entry target w goal := by
  cases h with
  | pass _ _ _ hrest => exact ⟨_, Nat.lt_succ_self _, hrest⟩
  | read hreads => cases hreads

/-- Where there is only one way on, a path takes it. -/
theorem Path.only {k id target goal : Nat} {entry : Int} {w : List Int} {reluctant : Bool}
    (h : Path network passes k entry id w goal) (hgoal : network.IsStop goal)
    (hways : network.ways? id = some (reluctant, [.epsilon target])) :
    ∃ k' < k, Path network passes k' entry target w goal := by
  obtain ⟨t, ht, hfirst⟩ := h.first hgoal hways
  obtain rfl := List.mem_singleton.mp ht
  exact hfirst.epsilon

end Runs

end Network

end GrammarCompiler
