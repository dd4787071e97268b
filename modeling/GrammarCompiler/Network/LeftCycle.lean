import GrammarCompiler.Network.Basic

/-!
# Cycles of left calls

A rule calls another one on its left if nothing has been read since the rule was entered. Rules
that call themselves this way, directly or through others, would never end. The search traces
every rule and follows calls, stepping over rules that can end without reading anything. A call
of a rule that is being traced closes a cycle.
-/

namespace GrammarCompiler

/-- Rules that call each other on their left, by their numbers. -/
abbrev Cycles := List (List Nat)

namespace Cycles

/-- Adds a rule to a cycle, unless it is in it. -/
def pushUnique (cycle : List Nat) (rule : Nat) : List Nat :=
  if cycle.contains rule then cycle else cycle ++ [rule]

theorem nodup_pushUnique {cycle : List Nat} (h : cycle.Nodup) (rule : Nat) :
    (pushUnique cycle rule).Nodup := by
  unfold pushUnique
  split
  · exact h
  · next hr =>
    have hr : rule ∉ cycle := by simpa using hr
    refine List.nodup_append.mpr ⟨h, by simp, ?_⟩
    intro a ha b hb
    obtain rfl : b = rule := by simpa using hb
    rintro rfl
    exact hr ha

/-- Adds a call to a cycle that holds one of the two rules. The flag tells whether it does. -/
def merge (caller callee : Nat) (cycle : List Nat) : List Nat × Bool :=
  let byCallee := cycle.contains callee
  let cycle := if byCallee then pushUnique cycle caller else cycle
  let byCaller := cycle.contains caller
  (if byCaller then pushUnique cycle callee else cycle, byCallee || byCaller)

/-- Adds a call to all cycles that hold one of the two rules, or else as a new cycle. -/
def add (cycles : Cycles) (caller callee : Nat) : Cycles :=
  let merged := cycles.map (merge caller callee)
  if merged.any (·.2) then merged.map (·.1)
  else merged.map (·.1) ++ [pushUnique [callee] caller]

/-- The names of the rules in cycles, unless a rule has none. -/
def names? (cycles : Cycles) (ruleNames : Array String) : Option (List (List String)) :=
  cycles.mapM fun cycle => cycle.mapM (ruleNames[·]?)

end Cycles

namespace Network

structure Trace where
  /-- The states that the trace of the current rule has entered. -/
  visited : List Nat := []
  cycles : Cycles := []
  /-- Whether the trace left the network for a state that does not exist. -/
  lost : Bool := false
deriving Repr, DecidableEq

/-- Traces from the state `id`; `tracing` holds the start states of the rules that are being
traced. The flag tells whether the rule can end without reading anything. -/
def traceFrom (network : Network) : Nat → List Nat → Nat → Trace → Bool × Trace
  | 0, _, _, trace => (false, trace)
  | fuel + 1, tracing, id, trace =>
    match network.state? id with
    | none => (false, { trace with lost := true })
    | some state =>
      if state.kind = .ruleStop then (true, trace)
      else if trace.visited.contains id then (false, trace)
      else
        state.transitions.foldl (fun (ends, trace) t =>
          match t with
          | .rule target rule _ follow =>
            if tracing.contains target then
              (ends, { trace with cycles := trace.cycles.add state.rule rule })
            else
              let (nullable, inner) :=
                network.traceFrom fuel (target :: tracing) target { trace with visited := [] }
              let trace := { inner with visited := trace.visited }
              if nullable then
                let (found, trace) := network.traceFrom fuel tracing follow trace
                (ends || found, trace)
              else (ends, trace)
          | t =>
            if t.isEpsilon then
              let (found, trace) := network.traceFrom fuel tracing t.target trace
              (ends || found, trace)
            else (ends, trace))
          (false, { trace with visited := id :: trace.visited })

/-- An upper bound for the length of a path on which no rule is traced twice at a time and no
state is entered twice in the trace of a rule. -/
def traceBound (network : Network) : Nat :=
  (network.callCount + 2) * (network.size + 2)

def traceState (network : Network) (id : Nat) (visited : List Nat) : Bool × Trace :=
  network.traceFrom network.traceBound [] id { visited }

def traceRules (network : Network) : Trace :=
  network.ruleStarts.toList.foldl (fun trace start =>
    (network.traceFrom network.traceBound [start] start { trace with visited := [] }).2) {}

def cycles (network : Network) : Cycles :=
  network.traceRules.cycles

end Network

end GrammarCompiler
