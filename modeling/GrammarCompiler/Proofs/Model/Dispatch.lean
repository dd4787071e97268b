import GrammarCompiler.Proofs.Model.Laid

/-!
# One token misleads no run

A run that is going to read a token is shown it by the network, all the way back through the
steps that read nothing (`Expects`). So where one token settles a choice, it selects the way that
the run has taken. Only behind the last token this says nothing: what comes there is not expected
by anything in the network.
-/

namespace GrammarCompiler

namespace ParserModel

namespace Source

/-- The functions of a model are laid out between the starts and the stops of their rules, and
the end of a rule leads back to all of its callers. -/
structure Wired (source : Source) (model : ParserModel) : Prop where
  least : source.network.minSymbol = Symbol.firstToken
  laid : ∀ function ∈ model.rules, ∃ start stop : Nat,
    source.network.ruleStarts[function.index]? = some start ∧
      Laid source function.body start stop ∧
      (∃ state, source.network.state? stop = some state ∧ state.kind = .ruleStop) ∧
      ∀ a p follow, source.network.Has a (.rule start function.index p follow) →
        source.network.Leaves (stop, []) (.epsilon follow)
  called : ∀ name function, model.function? name = some function →
    ∃ callee, source.grammar.rule? name = some callee ∧ callee.isLexerRule = false ∧
      callee.index = function.index

/-- A token is shown at a configuration, or a predicate comes before it. -/
def Begins (source : Source) (c : Network.Config) (n : Int) : Prop :=
  source.network.Shows c n ∨ source.network.Shows c Symbol.invalid

/-- If there is a token at a place of the input, it is shown at a state. -/
def Expects (source : Source) (input : List Int) (a i : Nat) : Prop :=
  i < input.length → source.Begins (a, []) (tokenAt input i)

section Runs

variable {source : Source} {model : ParserModel} {policy : Policy} {input : List Int} {p : Int}
  {ops : List Operation} {i j : Nat} {trace : List Trace}

theorem Begins.of_steps {c d : Network.Config} {n : Int} (hsteps : source.network.Steps c d)
    (h : source.Begins d n) : source.Begins c n :=
  h.imp (·.of_steps hsteps) (·.of_steps hsteps)

theorem Begins.of_reads {a : Nat} {t : Transition} {n : Int} (h : source.network.Has a t)
    (hreads : source.network.Reads t n) (stack : List Nat) : source.Begins (a, stack) n :=
  .inl (.reads .refl (h.leaves stack) hreads)

theorem Begins.of_predicate {a : Nat} {t : Transition} (h : source.network.Has a t)
    (ht : t.isPredicate = true) (n : Int) (stack : List Nat) : source.Begins (a, stack) n :=
  .inr (.predicate .refl (h.leaves stack) ht)

/-! ## Where steps lead -/

/-- Whether one token that settles a choice selects a way where it is shown at a state. -/
def Selects (source : Source) (choice : Choice) (target : Nat) (way : Option Nat) : Prop :=
  choice.kind.isLL1 = true → ¬source.network.Shows (target, []) Symbol.invalid ∧
    ∀ n, source.network.Shows (target, []) n → choice.dispatch n = way

section Choices

variable {choice : Choice} {a b : Nat}

/-- A choice leads into an alternative, behind which a loop comes again. -/
theorem Laid.enter (h : Laid source (.choice choice :: ops) a b) (hplus : choice.kind.isPlus = false)
    {k : Nat} {alt : AltCode} (halt : choice.alts[k]? = some alt) : ∃ target, source.Passes a target ∧
      Laid source (alt.ops ++ (choice.behind ++ ops)) target b ∧
      source.Selects choice target (some k) := by
  have hk : k < choice.alts.length := (List.getElem?_eq_some_iff.mp halt).1
  cases h with
  | cons hpass hstep hrest =>
      cases hstep with
      | @block _ targets _ _ hstar _ hto _ hsettles halts =>
          refine ⟨targets k, hpass.trans (hto k hk), ?_, fun hll1 => hsettles.enter hll1 k hk⟩
          rw [Choice.behind, hstar]
          exact (halts k alt halt).append hrest
      | @star _ targets _ _ hstar hto hby hsettles halts =>
          refine ⟨targets k, hpass.trans (hto k hk), ?_, fun hll1 => hsettles.enter hll1 k hk⟩
          rw [Choice.behind, hstar]
          exact (halts k alt halt).append
            (.cons (.refl source _) (.star hstar hto hby hsettles halts) hrest)
      | plus hplus' => rw [hplus'] at hplus; cases hplus

/-- A choice that no block has leads on behind its alternatives. -/
theorem Laid.pass (h : Laid source (.choice choice :: ops) a b) (hplus : choice.kind.isPlus = false)
    (hblock : choice.kind.isBlock = false) : ∃ target, source.Passes a target ∧
      Laid source ops target b ∧ source.Selects choice target none := by
  cases h with
  | cons hpass hstep hrest =>
      cases hstep with
      | block _ _ _ hby hsettles _ =>
          rw [hblock] at hsettles
          exact ⟨_, hpass.trans (hby hblock), hrest, fun hll1 => hsettles.pass hll1 _ rfl⟩
      | star _ _ hby hsettles _ =>
          exact ⟨_, hpass.trans hby, hrest, fun hll1 => hsettles.pass hll1 _ rfl⟩
      | plus hplus' => rw [hplus'] at hplus; cases hplus

/-- A loop that must come once leads through its body to the loop that may end. -/
theorem Laid.once (h : Laid source (.choice choice :: ops) a b) (hplus : choice.kind.isPlus = true) :
    Laid source (choice.body ++ .choice choice.again :: ops) a b := by
  cases h with
  | cons hpass hstep hrest =>
      cases hstep with
      | block _ hplus' => rw [hplus'] at hplus; cases hplus
      | star hstar => rw [ChoiceKind.isStar_of_isPlus hplus] at hstar; cases hstar
      | plus _ hbody hagain =>
          exact (hbody.append (.cons (.refl source _) hagain hrest)).before hpass

/-- A call leads into the function of a rule, at the end of which it goes on behind the call. -/
theorem Wired.call (hwired : source.Wired model) {name : String} {precedence : Option Int}
    {label : Option String} {function : RuleFunction} (hf : model.function? name = some function)
    (h : Laid source (.invoke name precedence label :: ops) a b) : ∃ at_ start stop follow p,
      source.Passes a at_ ∧
      source.network.Has at_ (.rule start function.index p follow) ∧
      Laid source function.body start stop ∧
      (∃ state, source.network.state? stop = some state ∧ state.kind = .ruleStop) ∧
      source.network.Leaves (stop, []) (.epsilon follow) ∧ Laid source ops follow b := by
  cases h with
  | cons hpass hstep hrest =>
      cases hstep with
      | invoke hcall =>
          obtain ⟨callee, hrule, hkind, hindex⟩ := hwired.called _ _ hf
          obtain ⟨start, stop, hstart, hbody, hstop, hreturn⟩ :=
            hwired.laid _ (List.mem_of_find?_eq_some hf)
          obtain ⟨start', p, hstart', hhas⟩ := hcall callee hrule hkind
          rw [hindex] at hstart' hhas
          obtain rfl : start = start' := Option.some.inj (hstart.symm.trans hstart')
          exact ⟨_, start, stop, _, p, hpass, hhas, hbody, hstop, hreturn _ _ _ hhas, hrest⟩

end Choices

/-! ## What is shown before a run -/

/-- Whether steps that read nothing lead from one configuration to another, or else the network shows
at the first what is read first. -/
def Leads (source : Source) (input : List Int) (c d : Network.Config) (i j : Nat) : Prop :=
  (i = j ∧ source.network.Steps c d) ∨ source.Begins c (tokenAt input i)

/-- What is known behind steps that read nothing is known before them. -/
theorem Leads.of_steps {c d e : Network.Config} (hsteps : source.network.Steps c d)
    (h : source.Leads input d e i j) : source.Leads input c e i j :=
  h.imp (fun ⟨heq, h⟩ => ⟨heq, hsteps.trans h⟩) (·.of_steps hsteps)

/-- A run reads nothing and the network gets by without reading, or the network shows what the
run reads first. -/
theorem Wired.begins (hwired : source.Wired model)
    (h : model.Runs source.network.maxSymbol policy input p ops i j trace) :
    ∀ {a b : Nat}, Laid source ops a b → ∀ stack, source.Leads input (a, stack) (b, stack) i j := by
  induction h with
  | done =>
      intro a b hlaid stack
      cases hlaid with
      | nil hpass => exact .inl ⟨rfl, hpass stack⟩
  | token ht _ _ =>
      intro a b hlaid stack
      cases hlaid with
      | cons hpass hstep _ =>
          cases hstep with
          | token hhas => exact .inr ((Begins.of_reads hhas ht stack).of_steps (hpass stack))
  | set ht _ _ =>
      intro a b hlaid stack
      cases hlaid with
      | cons hpass hstep _ =>
          cases hstep with
          | set hhas _ hreads =>
              exact .inr ((Begins.of_reads hhas (hreads _ ht) stack).of_steps (hpass stack))
  | wildcard ht _ _ =>
      intro a b hlaid stack
      cases hlaid with
      | cons hpass hstep _ =>
          cases hstep with
          | wildcard hhas =>
              rw [IsType, ← hwired.least] at ht
              exact .inr ((Begins.of_reads hhas ht stack).of_steps (hpass stack))
  | invoke hf _ _ ihbody ih =>
      intro a b hlaid stack
      obtain ⟨at_, start, stop, follow, p, hpass, hhas, hbody, ⟨state, hstop, hkind⟩, -, hrest⟩ :=
        hwired.call hf hlaid
      have henter : source.network.Steps (a, stack) (start, follow :: stack) :=
        (hpass stack).tail (.call (hhas.leaves stack))
      rcases ihbody hbody (follow :: stack) with ⟨rfl, hsteps⟩ | hbegins
      · exact (ih hrest stack).of_steps ((henter.trans hsteps).tail (.back hstop hkind))
      · exact .inr (hbegins.of_steps henter)
  | action _ ih =>
      intro a b hlaid stack
      cases hlaid with
      | cons hpass hstep hrest =>
          cases hstep with
          | action hhas =>
              exact (ih hrest stack).of_steps ((hpass stack).tail (.action (hhas.leaves stack)))
  | predicate _ _ =>
      intro a b hlaid stack
      cases hlaid with
      | cons hpass hstep _ =>
          cases hstep with
          | predicate hhas =>
              exact .inr ((Begins.of_predicate hhas rfl _ stack).of_steps (hpass stack))
  | precedence _ _ _ =>
      intro a b hlaid stack
      cases hlaid with
      | cons hpass hstep _ =>
          cases hstep with
          | precedence hhas =>
              exact .inr ((Begins.of_predicate hhas rfl _ stack).of_steps (hpass stack))
  | enter hplus _ halt _ ih =>
      intro a b hlaid stack
      obtain ⟨target, hpass, hrest, -⟩ := hlaid.enter hplus halt
      exact (ih hrest stack).of_steps (hpass stack)
  | pass hplus hblock _ _ ih =>
      intro a b hlaid stack
      obtain ⟨target, hpass, hrest, -⟩ := hlaid.pass hplus hblock
      exact (ih hrest stack).of_steps (hpass stack)
  | once hplus _ ih => exact fun hlaid stack => ih (hlaid.once hplus) stack

theorem Wired.expects (hwired : source.Wired model)
    (h : model.Runs source.network.maxSymbol policy input p ops i j trace) {a b : Nat}
    (hlaid : Laid source ops a b)
    (hafter : source.Expects input b j) : source.Expects input a i := by
  intro hlt
  rcases hwired.begins h hlaid [] with ⟨rfl, hsteps⟩ | hbegins
  · exact (hafter hlt).of_steps hsteps
  · exact hbegins

/-- Where a token is left, a choice that one token settles leads where it is expected. -/
theorem Expects.way {choice : Choice} {id : Nat} {way : Option Nat}
    (hexpects : source.Expects input id i)
    (hsettles : ¬source.network.Shows (id, []) Symbol.invalid ∧
      ∀ n, source.network.Shows (id, []) n → choice.dispatch n = way)
    (hend : input.length ≤ i → choice.dispatch (tokenAt input i) = way) :
    choice.dispatch (tokenAt input i) = way := by
  by_cases hlt : i < input.length
  · exact hsettles.2 _ ((hexpects hlt).resolve_right hsettles.1)
  · exact hend (Nat.not_lt.mp hlt)

/-- A run that obeys the next token at the end of the input has obeyed it all the time. -/
theorem Wired.rendered (hwired : source.Wired model)
    (h : model.Runs source.network.maxSymbol (.renderedFrom input.length) input p ops i j trace) :
    ∀ {a b : Nat}, Laid source ops a b → source.Expects input b j →
      model.Runs source.network.maxSymbol .rendered input p ops i j trace := by
  induction h with
  | done => exact fun _ _ => .done
  | token ht _ ih =>
      intro a b hlaid hafter
      cases hlaid with
      | cons _ _ hrest => exact .token ht (ih hrest hafter)
  | set ht _ ih =>
      intro a b hlaid hafter
      cases hlaid with
      | cons _ _ hrest => exact .set ht (ih hrest hafter)
  | wildcard ht _ ih =>
      intro a b hlaid hafter
      cases hlaid with
      | cons _ _ hrest => exact .wildcard ht (ih hrest hafter)
  | invoke hf _ hruns ihbody ih =>
      intro a b hlaid hafter
      obtain ⟨at_, start, stop, follow, p, -, -, hbody, -, hreturn, hrest⟩ := hwired.call hf hlaid
      refine .invoke hf (ihbody hbody fun hlt => ?_) (ih hrest hafter)
      -- the end of the rule leads back to the caller
      exact (hwired.expects hruns hrest hafter hlt).of_steps (.single (.epsilon hreturn))
  | action _ ih =>
      intro a b hlaid hafter
      cases hlaid with
      | cons _ _ hrest => exact .action (ih hrest hafter)
  | predicate _ ih =>
      intro a b hlaid hafter
      cases hlaid with
      | cons _ _ hrest => exact .predicate (ih hrest hafter)
  | precedence hp _ ih =>
      intro a b hlaid hafter
      cases hlaid with
      | cons _ _ hrest => exact .precedence hp (ih hrest hafter)
  | enter hplus hway halt hruns ih =>
      intro a b hlaid hafter
      obtain ⟨target, -, hrest, hselects⟩ := hlaid.enter hplus halt
      refine .enter hplus (fun hll1 _ => ?_) halt (ih hrest hafter)
      exact (hwired.expects hruns hrest hafter).way (hselects hll1) (hway hll1)
  | pass hplus hblock hway hruns ih =>
      intro a b hlaid hafter
      obtain ⟨target, -, hrest, hselects⟩ := hlaid.pass hplus hblock
      refine .pass hplus hblock (fun hll1 _ => ?_) (ih hrest hafter)
      exact (hwired.expects hruns hrest hafter).way (hselects hll1) (hway hll1)
  | once hplus _ ih => exact fun hlaid hafter => .once hplus (ih (hlaid.once hplus) hafter)

end Runs

/-- One token decides as well as prediction does, as long as there is a token. -/
theorem Wired.accepts_iff {source : Source} {model : ParserModel} (hwired : source.Wired model)
    {function : RuleFunction} (hfunction : function ∈ model.rules) (p : Int) (input : List Int) :
    model.Accepts source.network.maxSymbol .rendered function p input ↔
      model.Accepts source.network.maxSymbol (.renderedFrom input.length) function p input := by
  constructor
  · exact Accepts.mono fun _ _ _ _ _ h hll1 _ => h hll1 (Nat.zero_le _)
  · rintro ⟨trace, hruns⟩
    obtain ⟨start, stop, -, hbody, -⟩ := hwired.laid function hfunction
    exact ⟨trace, hwired.rendered hruns hbody fun hlt => absurd hlt (Nat.lt_irrefl _)⟩

end Source

end ParserModel

end GrammarCompiler
