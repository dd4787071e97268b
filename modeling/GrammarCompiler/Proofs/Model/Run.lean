import GrammarCompiler.Model.Build
import GrammarCompiler.Symbol

/-!
# Runs of a parser

What the function of a rule does with tokens, step by step as the code words it
(`ParserModel.Runs`). Tokens are read from a list, behind which there is nothing but the end of
the input.

What a prediction answers is not in the code. So a run is a run under a *policy*, which says at
every choice where it may lead: into one of the alternatives, or on behind all of them. The code
as it is written tests the next token where one token settles the choice (`Policy.rendered`); a
policy may leave these choices open as well.
-/

namespace GrammarCompiler

/-- The token at a place. Behind the last one comes the end of the input, however far. -/
def tokenAt (input : List Int) (place : Nat) : Int :=
  (input[place]?).getD Symbol.eof

namespace ChoiceKind

def isStar : ChoiceKind → Bool
  | ll1StarBlockSingleAlt | starBlock => true
  | _ => false

def isPlus : ChoiceKind → Bool
  | ll1PlusBlockSingleAlt | plusBlock => true
  | _ => false

def isBlock : ChoiceKind → Bool
  | ll1AltBlock | altBlock => true
  | _ => false

/-- What is left of a loop once its body has come: a loop that may end. -/
def again : ChoiceKind → ChoiceKind
  | ll1PlusBlockSingleAlt => ll1StarBlockSingleAlt
  | plusBlock => starBlock
  | kind => kind

@[simp]
theorem isLL1_again (kind : ChoiceKind) : kind.again.isLL1 = kind.isLL1 := by
  cases kind <;> rfl

theorem isStar_of_isPlus {kind : ChoiceKind} (h : kind.isPlus = true) : kind.isStar = false := by
  cases kind <;> first | rfl | cases h

theorem isPlus_of_isStar {kind : ChoiceKind} (h : kind.isStar = true) : kind.isPlus = false := by
  cases kind <;> first | rfl | cases h

theorem isBlock_of_isStar {kind : ChoiceKind} (h : kind.isStar = true) : kind.isBlock = false := by
  cases kind <;> first | rfl | cases h

theorem isStar_of_isBlock {kind : ChoiceKind} (h : kind.isBlock = true) : kind.isStar = false := by
  cases kind <;> first | rfl | cases h

theorem isPlus_of_isBlock {kind : ChoiceKind} (h : kind.isBlock = true) : kind.isPlus = false := by
  cases kind <;> first | rfl | cases h

theorem isStar_again {kind : ChoiceKind} (h : kind.isPlus = true) : kind.again.isStar = true := by
  cases kind <;> first | rfl | cases h

/-! ### The kind that is chosen -/

variable {settled : Bool} {suffix : Option Suffix} {count : Nat}

theorem isBlock_choose : (choose settled suffix count).isBlock = suffix.isNone := by
  unfold choose
  split <;> (repeat' split) <;> rfl

theorem isStar_choose : (choose settled suffix count).isStar = true ↔ suffix = some .closure := by
  unfold choose
  split <;> (repeat' split) <;> decide

theorem isPlus_choose :
    (choose settled suffix count).isPlus = true ↔ suffix = some .positiveClosure := by
  unfold choose
  split <;> (repeat' split) <;> decide

theorem settled_of_isLL1 (h : (choose settled suffix count).isLL1 = true) : settled = true := by
  cases settled with
  | true => rfl
  | false =>
      unfold choose at h
      split at h <;> cases h

end ChoiceKind

/-- A choice that the next token settles is one whose lookahead tells the alternatives apart, and it
tests for the sets of the lookahead. -/
theorem ParserModel.Source.settled_choice {source : Source} {suffix : Option Suffix} {d : Nat}
    {alts : List AltCode} (hll1 : (source.choice suffix d alts).kind.isLL1 = true) :
    disjoint (source.lookOf d) = true ∧ source.options.forcePrediction = false ∧
      (source.choice suffix d alts).look = (source.lookOf d).map fun set =>
        TestSet.ofSet (set.getD .empty) TestSet.machineWord := by
  have hsettled := ChoiceKind.settled_of_isLL1 hll1
  rw [Bool.and_eq_true, Bool.not_eq_true'] at hsettled
  refine ⟨hsettled.1, hsettled.2, ?_⟩
  unfold choice at hll1 ⊢
  dsimp only at hll1 ⊢
  rw [if_pos hll1]

namespace Choice

/-- The first of the alternatives that a token selects. -/
def dispatch (choice : Choice) (token : Int) : Option Nat :=
  (choice.look.take choice.alts.length).findIdx? (·.tokens.contains token)

/-- The steps of all alternatives; a loop has but one. -/
def body (choice : Choice) : List Operation :=
  choice.alts.flatMap (·.ops)

/-- The choice after the first round of a loop. -/
def again (choice : Choice) : Choice :=
  { choice with kind := choice.kind.again }

/-- What comes behind an alternative before anything else: a loop comes again. -/
def behind (choice : Choice) : List Operation :=
  if choice.kind.isStar then [.choice choice] else []

end Choice

/-- Where a choice may lead, given its place, the next token and the precedence that the rule was
entered with: into the alternative `some k`, or on behind it for `none`. -/
abbrev Policy := Nat → Int → Int → Choice → Option Nat → Prop

namespace Policy

/-- From a place on, the next token decides where it settles the choice. -/
def renderedFrom (start : Nat) : Policy := fun place token _ choice way =>
  choice.kind.isLL1 = true → start ≤ place → choice.dispatch token = way

/-- What the code does: the next token decides where it settles the choice, and a prediction may
answer anything. -/
def rendered : Policy := renderedFrom 0

/-- Every choice is open. -/
def free : Policy := fun _ _ _ _ _ => True

end Policy

/-- Whether a symbol is the type of a token, the greatest of which is `most`. The end of the input
is none. -/
def IsType (most token : Int) : Prop :=
  Symbol.firstToken ≤ token ∧ token ≤ most

/-- Whether a token passes the test for a set, or the test against it. -/
def TestSet.Passes (set : TestSet) (invert : Bool) (most token : Int) : Prop :=
  if invert then token ∉ set.tokens ∧ IsType most token else token ∈ set.tokens

def Operation.callee? : Operation → Option String
  | .invoke rule _ _ => some rule
  | _ => none

/-- What a run reads, and which rules it enters for it. -/
inductive Trace where
  | token (type : Int)
  | call (rule : String) (children : List Trace)

namespace ParserModel

def function? (model : ParserModel) (name : String) : Option RuleFunction :=
  model.rules.find? (·.name == name)

/-- Steps that lead from one place of the input to another, inside a rule that was entered with
the precedence `p`. A wildcard stands for the tokens up to the type `most`. Predicates of the author
count as true. -/
inductive Runs (model : ParserModel) (most : Int) (policy : Policy) (input : List Int) :
    Int → List Operation → Nat → Nat → List Trace → Prop
  | done {p : Int} {i : Nat} : Runs model most policy input p [] i i []
  | token {p type : Int} {label : Option String} {ops : List Operation} {i j : Nat}
      {trace : List Trace} :
      tokenAt input i = type → Runs model most policy input p ops (i + 1) j trace →
        Runs model most policy input p (.matchToken type label :: ops) i j (.token type :: trace)
  | set {p : Int} {set : TestSet} {invert : Bool} {ops : List Operation} {i j : Nat}
      {trace : List Trace} :
      set.Passes invert most (tokenAt input i) → Runs model most policy input p ops (i + 1) j trace →
        Runs model most policy input p (.matchSet set invert :: ops) i j
          (.token (tokenAt input i) :: trace)
  | wildcard {p : Int} {label : Option String} {ops : List Operation} {i j : Nat}
      {trace : List Trace} :
      IsType most (tokenAt input i) → Runs model most policy input p ops (i + 1) j trace →
        Runs model most policy input p (.wildcard label :: ops) i j (.token (tokenAt input i) :: trace)
  | invoke {p : Int} {rule : String} {precedence : Option Int} {label : Option String}
      {ops : List Operation} {function : RuleFunction} {i j k : Nat}
      {children trace : List Trace} :
      model.function? rule = some function →
        Runs model most policy input (precedence.getD 0) function.body i k children →
        Runs model most policy input p ops k j trace →
        Runs model most policy input p (.invoke rule precedence label :: ops) i j
          (.call rule children :: trace)
  | action {p : Int} {text : String} {ops : List Operation} {i j : Nat} {trace : List Trace} :
      Runs model most policy input p ops i j trace →
        Runs model most policy input p (.action text :: ops) i j trace
  | predicate {p : Int} {text : String} {ops : List Operation} {i j : Nat} {trace : List Trace} :
      Runs model most policy input p ops i j trace →
        Runs model most policy input p (.predicate text :: ops) i j trace
  | precedence {p q : Int} {ops : List Operation} {i j : Nat} {trace : List Trace} :
      p ≤ q → Runs model most policy input p ops i j trace →
        Runs model most policy input p (.precedence q :: ops) i j trace
  | enter {p : Int} {choice : Choice} {k : Nat} {alt : AltCode} {ops : List Operation} {i j : Nat}
      {trace : List Trace} :
      choice.kind.isPlus = false → policy i (tokenAt input i) p choice (some k) →
        choice.alts[k]? = some alt →
        Runs model most policy input p (alt.ops ++ (choice.behind ++ ops)) i j trace →
        Runs model most policy input p (.choice choice :: ops) i j trace
  | pass {p : Int} {choice : Choice} {ops : List Operation} {i j : Nat} {trace : List Trace} :
      choice.kind.isPlus = false → choice.kind.isBlock = false →
        policy i (tokenAt input i) p choice none → Runs model most policy input p ops i j trace →
        Runs model most policy input p (.choice choice :: ops) i j trace
  | once {p : Int} {choice : Choice} {ops : List Operation} {i j : Nat} {trace : List Trace} :
      choice.kind.isPlus = true →
        Runs model most policy input p (choice.body ++ .choice choice.again :: ops) i j trace →
        Runs model most policy input p (.choice choice :: ops) i j trace

/-- The function of a rule, entered with the precedence `p`, reads all of the input and nothing
behind it. -/
def Accepts (model : ParserModel) (most : Int) (policy : Policy) (function : RuleFunction) (p : Int)
    (input : List Int) : Prop :=
  ∃ trace, model.Runs most policy input p function.body 0 input.length trace

section Runs

variable {model : ParserModel} {most : Int} {policy policy' : Policy} {input : List Int} {p : Int}
  {ops : List Operation} {i j : Nat} {trace : List Trace}

/-- No step goes back. -/
theorem Runs.le (h : model.Runs most policy input p ops i j trace) : i ≤ j := by
  induction h with
  | done => exact Nat.le_refl _
  | token _ _ ih | set _ _ ih | wildcard _ _ ih => exact Nat.le_of_succ_le ih
  | invoke _ _ _ ihbody ih => exact Nat.le_trans ihbody ih
  | action _ ih | predicate _ ih | precedence _ _ ih => exact ih
  | enter _ _ _ _ ih | pass _ _ _ _ ih | once _ _ ih => exact ih

/-- A policy that allows more allows more runs. -/
theorem Runs.mono (hpolicy : ∀ i token p choice way,
      policy i token p choice way → policy' i token p choice way)
    (h : model.Runs most policy input p ops i j trace) : model.Runs most policy' input p ops i j trace := by
  induction h with
  | done => exact .done
  | token ht _ ih => exact .token ht ih
  | set ht _ ih => exact .set ht ih
  | wildcard ht _ ih => exact .wildcard ht ih
  | invoke hf _ _ ihbody ih => exact .invoke hf ihbody ih
  | action _ ih => exact .action ih
  | predicate _ ih => exact .predicate ih
  | precedence hp _ ih => exact .precedence hp ih
  | enter hkind hway halt _ ih => exact .enter hkind (hpolicy _ _ _ _ _ hway) halt ih
  | pass hkind hblock hway _ ih => exact .pass hkind hblock (hpolicy _ _ _ _ _ hway) ih
  | once hkind _ ih => exact .once hkind ih

theorem Accepts.mono {function : RuleFunction} (hpolicy : ∀ i token p choice way,
      policy i token p choice way → policy' i token p choice way)
    (h : model.Accepts most policy function p input) :
    model.Accepts most policy' function p input := by
  obtain ⟨trace, hruns⟩ := h
  exact ⟨trace, hruns.mono hpolicy⟩

/-- A run calls the rules it comes by, so there are functions for them. -/
theorem Runs.isSome_function? {op : Operation} {name : String}
    (h : model.Runs most policy input p ops i j trace) (hop : op ∈ ops)
    (hcallee : op.callee? = some name) : (model.function? name).isSome = true := by
  induction h with
  | done => cases hop
  | invoke hf _ _ _ ih =>
      rcases List.mem_cons.mp hop with rfl | hop
      · obtain rfl := Option.some.inj hcallee
        rw [hf]
        rfl
      · exact ih hop
  | enter _ _ _ _ ih =>
      rcases List.mem_cons.mp hop with rfl | hop
      · cases hcallee
      · exact ih (List.mem_append_right _ (List.mem_append_right _ hop))
  | once _ _ ih =>
      rcases List.mem_cons.mp hop with rfl | hop
      · cases hcallee
      · exact ih (List.mem_append_right _ (List.mem_cons_of_mem _ hop))
  | token _ _ ih | set _ _ ih | wildcard _ _ ih | action _ ih | predicate _ ih
  | precedence _ _ ih | pass _ _ _ _ ih =>
      rcases List.mem_cons.mp hop with rfl | hop
      · cases hcallee
      · exact ih hop

/-- Steps one behind the other lead on. -/
theorem Runs.append {ops' : List Operation} {k : Nat} {trace' : List Trace}
    (h : model.Runs most policy input p ops i k trace)
    (h' : model.Runs most policy input p ops' k j trace') :
    model.Runs most policy input p (ops ++ ops') i j (trace ++ trace') := by
  induction h with
  | done => exact h'
  | token ht _ ih => exact .token ht (ih h')
  | set ht _ ih => exact .set ht (ih h')
  | wildcard ht _ ih => exact .wildcard ht (ih h')
  | invoke hf hbody _ _ ih => exact .invoke hf hbody (ih h')
  | action _ ih => exact .action (ih h')
  | predicate _ ih => exact .predicate (ih h')
  | precedence hp _ ih => exact .precedence hp (ih h')
  | enter hkind hway halt _ ih =>
      have hruns := ih h'
      rw [List.append_assoc, List.append_assoc] at hruns
      exact .enter hkind hway halt hruns
  | pass hkind hblock hway _ ih => exact .pass hkind hblock hway (ih h')
  | once hkind _ ih =>
      have hruns := ih h'
      rw [List.append_assoc] at hruns
      exact .once hkind hruns

/-- A run comes by the place where some of its steps end. -/
theorem Runs.split {whole ops' : List Operation} (hwhole : whole = ops ++ ops')
    (h : model.Runs most policy input p whole i j trace) :
    ∃ k front back, model.Runs most policy input p ops i k front ∧
      model.Runs most policy input p ops' k j back ∧ trace = front ++ back := by
  induction h generalizing ops with
  | @done p i =>
      obtain ⟨rfl, rfl⟩ := List.append_eq_nil_iff.mp hwhole.symm
      exact ⟨i, [], [], .done, .done, rfl⟩
  | token ht hruns ih =>
      rcases List.cons_eq_append_iff.mp hwhole with ⟨rfl, rfl⟩ | ⟨rest, rfl, rfl⟩
      · exact ⟨_, [], _, .done, .token ht hruns, rfl⟩
      · obtain ⟨k, front, back, hfront, hback, rfl⟩ := ih rfl
        exact ⟨k, _, back, .token ht hfront, hback, rfl⟩
  | set ht hruns ih =>
      rcases List.cons_eq_append_iff.mp hwhole with ⟨rfl, rfl⟩ | ⟨rest, rfl, rfl⟩
      · exact ⟨_, [], _, .done, .set ht hruns, rfl⟩
      · obtain ⟨k, front, back, hfront, hback, rfl⟩ := ih rfl
        exact ⟨k, _, back, .set ht hfront, hback, rfl⟩
  | wildcard ht hruns ih =>
      rcases List.cons_eq_append_iff.mp hwhole with ⟨rfl, rfl⟩ | ⟨rest, rfl, rfl⟩
      · exact ⟨_, [], _, .done, .wildcard ht hruns, rfl⟩
      · obtain ⟨k, front, back, hfront, hback, rfl⟩ := ih rfl
        exact ⟨k, _, back, .wildcard ht hfront, hback, rfl⟩
  | invoke hf hbody hruns _ ih =>
      rcases List.cons_eq_append_iff.mp hwhole with ⟨rfl, rfl⟩ | ⟨rest, rfl, rfl⟩
      · exact ⟨_, [], _, .done, .invoke hf hbody hruns, rfl⟩
      · obtain ⟨k, front, back, hfront, hback, rfl⟩ := ih rfl
        exact ⟨k, _, back, .invoke hf hbody hfront, hback, rfl⟩
  | action hruns ih =>
      rcases List.cons_eq_append_iff.mp hwhole with ⟨rfl, rfl⟩ | ⟨rest, rfl, rfl⟩
      · exact ⟨_, [], _, .done, .action hruns, rfl⟩
      · obtain ⟨k, front, back, hfront, hback, rfl⟩ := ih rfl
        exact ⟨k, _, back, .action hfront, hback, rfl⟩
  | predicate hruns ih =>
      rcases List.cons_eq_append_iff.mp hwhole with ⟨rfl, rfl⟩ | ⟨rest, rfl, rfl⟩
      · exact ⟨_, [], _, .done, .predicate hruns, rfl⟩
      · obtain ⟨k, front, back, hfront, hback, rfl⟩ := ih rfl
        exact ⟨k, _, back, .predicate hfront, hback, rfl⟩
  | precedence hp hruns ih =>
      rcases List.cons_eq_append_iff.mp hwhole with ⟨rfl, rfl⟩ | ⟨rest, rfl, rfl⟩
      · exact ⟨_, [], _, .done, .precedence hp hruns, rfl⟩
      · obtain ⟨k, front, back, hfront, hback, rfl⟩ := ih rfl
        exact ⟨k, _, back, .precedence hp hfront, hback, rfl⟩
  | enter hkind hway halt hruns ih =>
      rcases List.cons_eq_append_iff.mp hwhole with ⟨rfl, rfl⟩ | ⟨rest, rfl, rfl⟩
      · exact ⟨_, [], _, .done, .enter hkind hway halt hruns, rfl⟩
      · rw [← List.append_assoc, ← List.append_assoc] at ih
        obtain ⟨k, front, back, hfront, hback, rfl⟩ := ih rfl
        rw [List.append_assoc] at hfront
        exact ⟨k, _, back, .enter hkind hway halt hfront, hback, rfl⟩
  | pass hkind hblock hway hruns ih =>
      rcases List.cons_eq_append_iff.mp hwhole with ⟨rfl, rfl⟩ | ⟨rest, rfl, rfl⟩
      · exact ⟨_, [], _, .done, .pass hkind hblock hway hruns, rfl⟩
      · obtain ⟨k, front, back, hfront, hback, rfl⟩ := ih rfl
        exact ⟨k, _, back, .pass hkind hblock hway hfront, hback, rfl⟩
  | once hkind hruns ih =>
      rcases List.cons_eq_append_iff.mp hwhole with ⟨rfl, rfl⟩ | ⟨rest, rfl, rfl⟩
      · exact ⟨_, [], _, .done, .once hkind hruns, rfl⟩
      · rw [← List.cons_append, ← List.append_assoc] at ih
        obtain ⟨k, front, back, hfront, hback, rfl⟩ := ih rfl
        exact ⟨k, _, back, .once hkind hfront, hback, rfl⟩

end Runs

end ParserModel

end GrammarCompiler
