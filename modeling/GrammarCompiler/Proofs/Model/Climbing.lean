import GrammarCompiler.Proofs.Model.Run
import GrammarCompiler.Recursion.Analysis

/-!
# Precedence climbing

A rule for expressions reads an operand and then, in a loop, operators with their last operands. The
rule is entered with a precedence, and the loop takes no operator of a lower one. What comes out is the
one tree in which operators are grouped as their precedences and associativities say
(`OperatorTree.Grouped`).

The tree of a run is read off its trace: every round of the loop makes what has been read so far the
left operand of the next operator (`OperatorTree.trace`). The induction goes along the tree, with the
next token as the invariant: it does not belong to what has been read (`Climbs.spine`).
-/

namespace GrammarCompiler

/-! ## Operators -/

/-- An operator: the number of its alternative, its token, and how chains of it are grouped. -/
structure Operator where
  num : Nat
  token : Int
  assoc : Assoc
deriving Repr, DecidableEq

/-- The operators of a rule with some number of alternatives, and the tokens that are operands. -/
structure OperatorTable where
  count : Nat
  operators : List Operator
  primaries : List Int
deriving Repr, DecidableEq

namespace Operator

/-- The precedence of an operator of a rule with `count` alternatives. -/
def precedence (op : Operator) (count : Nat) : Int :=
  precedenceOf count op.num

/-- The precedence that the last operand is entered with. -/
def nextPrecedence (op : Operator) (count : Nat) : Int :=
  op.assoc.nextPrecedence (precedenceOf count op.num)

/-- Whether the left operand of an operator may be a chain of another: it comes earlier, or is the same
and is grouped to the left. -/
def MayLead (inner outer : Operator) : Prop :=
  inner.num < outer.num ∨ inner = outer ∧ outer.assoc = .left

/-- Whether the right operand of an operator may be a chain of another: it comes earlier, or is the same
and is grouped to the right. -/
def MayFollow (inner outer : Operator) : Prop :=
  inner.num < outer.num ∨ inner = outer ∧ outer.assoc = .right

instance (inner outer : Operator) : Decidable (inner.MayLead outer) :=
  inferInstanceAs (Decidable (_ ∨ _))

instance (inner outer : Operator) : Decidable (inner.MayFollow outer) :=
  inferInstanceAs (Decidable (_ ∨ _))

section Order

variable {inner outer : Operator} {count : Nat}

theorem precedence_lt (hlt : inner.num < outer.num) (hle : outer.num ≤ count) :
    outer.precedence count < inner.precedence count :=
  Int.ofNat_lt.mpr (precedenceOf_lt_precedenceOf hlt hle)

theorem precedence_le_nextPrecedence (op : Operator) (count : Nat) :
    op.precedence count ≤ op.nextPrecedence count := by
  unfold precedence nextPrecedence Assoc.nextPrecedence
  split <;> omega

theorem nextPrecedence_le (op : Operator) (count : Nat) :
    op.nextPrecedence count ≤ op.precedence count + 1 := by
  unfold precedence nextPrecedence Assoc.nextPrecedence
  split <;> omega

/-- An operator that may lead another takes the other behind its last operand. -/
theorem MayLead.precedence_lt (h : inner.MayLead outer) (hle : outer.num ≤ count) :
    outer.precedence count < inner.nextPrecedence count := by
  rcases h with hlt | ⟨rfl, hleft⟩
  · exact Int.lt_of_lt_of_le (Operator.precedence_lt hlt hle) (inner.precedence_le_nextPrecedence count)
  · unfold precedence nextPrecedence
    rw [hleft]
    exact Int.ofNat_lt.mpr (Nat.lt_succ_self _)

theorem MayLead.precedence_le (h : inner.MayLead outer) (hle : outer.num ≤ count) :
    outer.precedence count ≤ inner.precedence count := by
  rcases h with hlt | ⟨rfl, -⟩
  · exact Int.le_of_lt (Operator.precedence_lt hlt hle)
  · exact Int.le_refl _

/-- An operator that may follow another is taken as part of its last operand. -/
theorem MayFollow.nextPrecedence_le (h : inner.MayFollow outer) (hle : outer.num ≤ count) :
    outer.nextPrecedence count ≤ inner.precedence count := by
  rcases h with hlt | ⟨rfl, hright⟩
  · exact Int.le_trans (outer.nextPrecedence_le count) (Operator.precedence_lt hlt hle)
  · unfold precedence nextPrecedence
    rw [hright]
    exact Int.le_refl _

end Order

end Operator

namespace OperatorTable

/-- Whether numbers and tokens tell operators and operands apart, and none is the end of the input. -/
structure Distinct (table : OperatorTable) : Prop where
  bound : ∀ op ∈ table.operators, op.num ≤ table.count
  nums : ∀ op ∈ table.operators, ∀ op' ∈ table.operators, op.num = op'.num → op = op'
  tokens : ∀ op ∈ table.operators, ∀ op' ∈ table.operators, op.token = op'.token → op = op'
  ends : ∀ op ∈ table.operators, op.token ≠ Symbol.eof

/-- Operands with operators between them. -/
inductive Expression (table : OperatorTable) : List Int → Prop
  | operand {t : Int} : t ∈ table.primaries → Expression table [t]
  | chain {t : Int} {op : Operator} {w : List Int} : t ∈ table.primaries → op ∈ table.operators →
      Expression table w → Expression table (t :: op.token :: w)

end OperatorTable

/-! ## Trees -/

/-- How operators are grouped. -/
inductive OperatorTree where
  | operand (token : Int)
  | node (left : OperatorTree) (op : Operator) (right : OperatorTree)
deriving Repr

namespace OperatorTree

/-- The operator that is grouped last. -/
def root? : OperatorTree → Option Operator
  | operand _ => none
  | node _ op _ => some op

def tokens : OperatorTree → List Int
  | operand token => [token]
  | node left op right => left.tokens ++ op.token :: right.tokens

/-- The run of a rule that a tree is read off. The left operand is what the rounds before have read, and
the right one what the rule reads that is called for it. -/
def trace (rule : String) : OperatorTree → List Trace
  | operand token => [.token token]
  | node left op right => left.trace rule ++ [.token op.token, .call rule (right.trace rule)]

/-- Whether all operators of a tree are grouped as their numbers and associativities say. -/
inductive Grouped (table : OperatorTable) : OperatorTree → Prop
  | operand {t : Int} : t ∈ table.primaries → Grouped table (.operand t)
  | node {left right : OperatorTree} {op : Operator} : op ∈ table.operators → Grouped table left →
      Grouped table right → (∀ inner ∈ left.root?, inner.MayLead op) →
      (∀ inner ∈ right.root?, inner.MayFollow op) → Grouped table (.node left op right)

section Trees

variable {table : OperatorTable} {tree other : OperatorTree}

theorem length_trace_pos (rule : String) (tree : OperatorTree) : 0 < (tree.trace rule).length := by
  cases tree with
  | operand => exact Nat.one_pos
  | node left op right =>
      rw [trace, List.length_append]
      exact Nat.lt_of_lt_of_le Nat.two_pos (Nat.le_add_left ..)

/-- Grouped trees are told apart by the runs they are read off. -/
theorem Grouped.eq_of_trace (hdistinct : table.Distinct) {rule : String} (h : tree.Grouped table)
    (h' : other.Grouped table) (htrace : tree.trace rule = other.trace rule) : tree = other := by
  induction h generalizing other with
  | operand =>
      cases h' with
      | operand =>
          simp only [trace, List.cons.injEq, Trace.token.injEq, and_true] at htrace
          rw [htrace]
      | @node left right op =>
          have hlength := congrArg List.length htrace
          have hpos := left.length_trace_pos rule
          simp only [trace, List.length_append, List.length_cons, List.length_nil] at hlength
          omega
  | @node left right op hop _ _ _ _ ihleft ihright =>
      cases h' with
      | operand =>
          have hlength := congrArg List.length htrace
          have hpos := left.length_trace_pos rule
          simp only [trace, List.length_append, List.length_cons, List.length_nil] at hlength
          omega
      | node hop' hleft hright =>
          obtain ⟨hleft', hround⟩ := List.append_inj' htrace rfl
          simp only [List.cons.injEq, Trace.token.injEq, Trace.call.injEq, true_and, and_true] at hround
          rw [ihleft hleft hleft', ihright hright hround.2, hdistinct.tokens _ hop _ hop' hround.1]

/-- Puts an operand and an operator in front of a tree: as far down on the left as the operator may go. -/
def prepend (token : Int) (op : Operator) : OperatorTree → OperatorTree
  | operand last => node (operand token) op (operand last)
  | node left outer right =>
    if op.MayLead outer then node (left.prepend token op) outer right
    else node (operand token) op (node left outer right)

theorem tokens_prepend (token : Int) (op : Operator) (tree : OperatorTree) :
    (tree.prepend token op).tokens = token :: op.token :: tree.tokens := by
  induction tree with
  | operand last => rfl
  | node left outer right ihleft =>
      rw [prepend]
      split
      · rw [tokens, ihleft]
        rfl
      · rfl

theorem root?_prepend (token : Int) (op : Operator) (tree : OperatorTree) :
    (tree.prepend token op).root? = some op ∨ (tree.prepend token op).root? = tree.root? := by
  cases tree with
  | operand last => exact .inl rfl
  | node left outer right =>
      rw [prepend]
      split
      · exact .inr rfl
      · exact .inl rfl

theorem Grouped.prepend (hdistinct : table.Distinct) {token : Int} (htoken : token ∈ table.primaries)
    {op : Operator} (hop : op ∈ table.operators) (h : tree.Grouped table) :
    (tree.prepend token op).Grouped table := by
  induction h with
  | operand hlast => exact .node hop (.operand htoken) (.operand hlast) nofun nofun
  | @node left right outer houter hleft hright hlead hfollow ihleft =>
      rw [OperatorTree.prepend]
      split
      · next hmay =>
          refine .node houter ihleft hright (fun inner hinner => ?_) hfollow
          rcases root?_prepend token op left with hroot | hroot
          · rw [hroot] at hinner
            exact Option.some.inj hinner ▸ hmay
          · exact hlead inner (hroot ▸ hinner)
      · next hmay =>
          refine .node hop (.operand htoken) (.node houter hleft hright hlead hfollow) nofun ?_
          intro inner hinner
          obtain rfl := Option.some.inj hinner
          -- the operator may not lead the other one, so the other one may follow it
          rcases Nat.lt_trichotomy op.num outer.num with hlt | heq | hlt
          · exact absurd (.inl hlt) hmay
          · obtain rfl := hdistinct.nums _ hop _ houter heq
            refine .inr ⟨rfl, ?_⟩
            cases hassoc : op.assoc with
            | left => exact absurd (.inr ⟨rfl, hassoc⟩) hmay
            | right => rfl
          · exact .inl hlt

/-- Every expression can be grouped. -/
theorem exists_grouped (hdistinct : table.Distinct) {w : List Int} (h : table.Expression w) :
    ∃ tree : OperatorTree, tree.Grouped table ∧ tree.tokens = w := by
  induction h with
  | operand ht => exact ⟨_, .operand ht, rfl⟩
  | chain ht hop _ ih =>
      obtain ⟨tree, hgrouped, rfl⟩ := ih
      exact ⟨_, hgrouped.prepend hdistinct ht hop, tokens_prepend _ _ _⟩

end Trees

end OperatorTree

/-! ## Greedy runs -/

mutual
/-- Whether steps begin with a token, behind tests that a precedence passes. -/
def Operation.opens (p token : Int) : List Operation → Bool
  | .matchToken type _ :: _ => type == token
  | .action _ :: ops | .predicate _ :: ops => Operation.opens p token ops
  | .precedence q :: ops => decide (p ≤ q) && Operation.opens p token ops
  | .choice choice :: _ => choice.opens p token
  | _ => false

def Choice.opens (p token : Int) : Choice → Bool
  | ⟨_, _, alts, _⟩ => AltCode.opensAny p token alts

/-- Whether one of some alternatives begins with a token. -/
def AltCode.opensAny (p token : Int) : List AltCode → Bool
  | [] => false
  | alt :: alts => alt.opens p token || AltCode.opensAny p token alts

def AltCode.opens (p token : Int) : AltCode → Bool
  | ⟨_, ops⟩ => Operation.opens p token ops
end

theorem AltCode.opensAny_eq (p token : Int) (alts : List AltCode) :
    AltCode.opensAny p token alts = alts.any (·.opens p token) := by
  induction alts with
  | nil => rfl
  | cons alt alts ih => rw [opensAny, ih, List.any_cons]

theorem AltCode.opens_eq (p token : Int) (alt : AltCode) :
    alt.opens p token = Operation.opens p token alt.ops := by
  obtain ⟨num, ops⟩ := alt
  rw [AltCode.opens]

/-- The first alternative that begins with a token. -/
def Choice.guess (choice : Choice) (p token : Int) : Option Nat :=
  choice.alts.findIdx? (·.opens p token)

/-- The next token decides where it settles the choice. A prediction takes the first alternative that
begins with it, if there is one, and leads on behind the choice otherwise. -/
def Policy.greedy : Policy := fun _ token p choice way =>
  (if choice.kind.isLL1 then choice.dispatch token else choice.guess p token) = way

namespace ParserModel

section Greedy

variable {model : ParserModel} {most : Int} {policy : Policy} {input : List Int} {p : Int}
  {ops : List Operation} {i j k : Nat} {trace trace' : List Trace}

/-- If a policy leaves no choice, there is but one run. -/
theorem Runs.unique (hpolicy : ∀ i token p choice way way', policy i token p choice way →
      policy i token p choice way' → way = way')
    (h : model.Runs most policy input p ops i j trace)
    (h' : model.Runs most policy input p ops i k trace') : j = k ∧ trace = trace' := by
  induction h generalizing k trace' with
  | done =>
      cases h'
      exact ⟨rfl, rfl⟩
  | token _ _ ih =>
      cases h' with | token _ hruns =>
      obtain ⟨rfl, rfl⟩ := ih hruns
      exact ⟨rfl, rfl⟩
  | set _ _ ih =>
      cases h' with | set _ hruns =>
      obtain ⟨rfl, rfl⟩ := ih hruns
      exact ⟨rfl, rfl⟩
  | wildcard _ _ ih =>
      cases h' with | wildcard _ hruns =>
      obtain ⟨rfl, rfl⟩ := ih hruns
      exact ⟨rfl, rfl⟩
  | invoke hf _ _ ihbody ih =>
      cases h' with | invoke hf' hbody hruns =>
      obtain rfl := Option.some.inj (hf.symm.trans hf')
      obtain ⟨rfl, rfl⟩ := ihbody hbody
      obtain ⟨rfl, rfl⟩ := ih hruns
      exact ⟨rfl, rfl⟩
  | action _ ih =>
      cases h' with | action hruns =>
      exact ih hruns
  | predicate _ ih =>
      cases h' with | predicate hruns =>
      exact ih hruns
  | precedence _ _ ih =>
      cases h' with | precedence _ hruns =>
      exact ih hruns
  | enter hkind hway halt _ ih =>
      cases h' with
      | enter _ hway' halt' hruns =>
          obtain rfl := Option.some.inj (hpolicy _ _ _ _ _ _ hway hway')
          obtain rfl := Option.some.inj (halt.symm.trans halt')
          exact ih hruns
      | pass _ _ hway' => cases hpolicy _ _ _ _ _ _ hway hway'
      | once hkind' => rw [hkind] at hkind'; cases hkind'
  | pass hkind _ hway _ ih =>
      cases h' with
      | enter _ hway' => cases hpolicy _ _ _ _ _ _ hway hway'
      | pass _ _ _ hruns => exact ih hruns
      | once hkind' => rw [hkind] at hkind'; cases hkind'
  | once hkind _ ih =>
      cases h' with
      | enter hkind' => rw [hkind] at hkind'; cases hkind'
      | pass hkind' => rw [hkind] at hkind'; cases hkind'
      | once _ hruns => exact ih hruns

end Greedy

/-! ## Functions that climb -/

/-- Whether tokens stand at a place of the input. -/
def ReadsAt (input : List Int) : Nat → List Int → Prop
  | _, [] => True
  | i, t :: ts => tokenAt input i = t ∧ ReadsAt input (i + 1) ts

theorem readsAt_append {input ts us : List Int} {i : Nat} :
    ReadsAt input i (ts ++ us) ↔ ReadsAt input i ts ∧ ReadsAt input (i + ts.length) us := by
  induction ts generalizing i with
  | nil => simp [ReadsAt]
  | cons t ts ih =>
      rw [List.cons_append, ReadsAt, ReadsAt, ih, List.length_cons, and_assoc,
        show i + 1 + ts.length = i + (ts.length + 1) by omega]

theorem readsAt_self (front ts : List Int) : ReadsAt (front ++ ts) front.length ts := by
  induction ts generalizing front with
  | nil => exact trivial
  | cons t ts ih =>
      refine ⟨by simp [tokenAt], ?_⟩
      have hrest := ih (front ++ [t])
      rwa [List.append_assoc, List.length_append] at hrest

/-- What the function of a rule for expressions does: it reads an operand, and then a loop takes the
operators of a precedence. -/
structure Climbs (model : ParserModel) (most : Int) (policy : Policy) (rule : String)
    (table : OperatorTable) (function : RuleFunction) (front : List Operation) (loop : Choice) :
    Prop where
  found : model.function? rule = some function
  body : function.body = front ++ [.choice loop]
  operand : ∀ {input : List Int} {p : Int} {i : Nat}, tokenAt input i ∈ table.primaries →
    model.Runs most policy input p front i (i + 1) [.token (tokenAt input i)]
  enter : ∀ {input : List Int} {p : Int} {i j : Nat} {op : Operator} {trace : List Trace},
    op ∈ table.operators → tokenAt input i = op.token → p ≤ op.precedence table.count →
    model.Runs most policy input p [.matchToken op.token none,
      .invoke rule (some (op.nextPrecedence table.count)) none, .choice loop] i j trace →
    model.Runs most policy input p [.choice loop] i j trace
  pass : ∀ {input : List Int} {p : Int} {i : Nat},
    (∀ op ∈ table.operators, tokenAt input i = op.token → op.precedence table.count < p) →
    model.Runs most policy input p [.choice loop] i i []

section Climbs

variable {model : ParserModel} {most : Int} {policy : Policy} {rule : String} {table : OperatorTable}
  {function : RuleFunction} {front : List Operation} {loop : Choice} {input : List Int}
  (h : model.Climbs most policy rule table function front loop) (hdistinct : table.Distinct)

include h hdistinct

/-- A tree is read by the function and some rounds of its loop, if all operators have the precedence that
the rule was entered with and the next token is none that its last operand would take. -/
theorem Climbs.spine {tree : OperatorTree} (hgrouped : tree.Grouped table) {p : Int} {i j : Nat}
    {trace : List Trace} (hreads : ReadsAt input i tree.tokens)
    (hroot : ∀ root ∈ tree.root?, p ≤ root.precedence table.count)
    (hnext : ∀ root ∈ tree.root?, ∀ op ∈ table.operators,
      tokenAt input (i + tree.tokens.length) = op.token →
        op.precedence table.count < root.nextPrecedence table.count)
    (hrest : model.Runs most policy input p [.choice loop] (i + tree.tokens.length) j trace) :
    model.Runs most policy input p function.body i j (tree.trace rule ++ trace) := by
  induction hgrouped generalizing p i j trace with
  | operand ht =>
      rw [h.body]
      obtain ⟨rfl, -⟩ := hreads
      exact (h.operand ht).append hrest
  | @node left right op hop hleft hright hlead hfollow ihleft ihright =>
      have hbound := hdistinct.bound op hop
      obtain ⟨hreadsLeft, htoken, hreadsRight⟩ := readsAt_append.mp hreads
      have hlength : i + (OperatorTree.node left op right).tokens.length =
          i + left.tokens.length + 1 + right.tokens.length := by
        rw [OperatorTree.tokens, List.length_append, List.length_cons]
        omega
      rw [hlength] at hnext hrest
      -- the last operand is read with the precedence that the operator demands
      have hoperand : model.Runs most policy input (op.nextPrecedence table.count) function.body
          (i + left.tokens.length + 1) (i + left.tokens.length + 1 + right.tokens.length)
          (right.trace rule ++ []) := by
        refine ihright hreadsRight
          (fun root hmem => (hfollow root hmem).nextPrecedence_le hbound)
          (fun root hmem op' hop' htoken' => ?_) (h.pass (hnext op rfl))
        exact Int.lt_of_lt_of_le (hnext op rfl op' hop' htoken')
          (Int.le_trans ((hfollow root hmem).nextPrecedence_le hbound)
            (root.precedence_le_nextPrecedence _))
      rw [List.append_nil] at hoperand
      rw [OperatorTree.trace, List.append_assoc]
      refine ihleft hreadsLeft
        (fun root hmem => Int.le_trans (hroot op rfl) ((hlead root hmem).precedence_le hbound))
        (fun root hmem op' hop' htoken' => ?_)
        (h.enter hop htoken (hroot op rfl) (.token htoken (.invoke h.found hoperand hrest)))
      obtain rfl := hdistinct.tokens _ hop' _ hop (htoken'.symm.trans htoken)
      exact (hlead root hmem).precedence_lt hbound

/-- The function that is entered without a precedence reads all of a tree. -/
theorem Climbs.runs {tree : OperatorTree} (hgrouped : tree.Grouped table) :
    model.Runs most policy tree.tokens 0 function.body 0 tree.tokens.length (tree.trace rule) := by
  have hends : ∀ op ∈ table.operators, tokenAt tree.tokens tree.tokens.length ≠ op.token := by
    intro op hop htoken
    refine hdistinct.ends op hop (htoken.symm.trans ?_)
    rw [tokenAt, List.getElem?_eq_none (Nat.le_refl _)]
    rfl
  have hpass := @h.pass tree.tokens 0 tree.tokens.length fun op hop htoken =>
    absurd htoken (hends op hop)
  rw [← Nat.zero_add tree.tokens.length] at hends hpass
  have hruns := h.spine hdistinct hgrouped (readsAt_self [] tree.tokens)
    (fun root _ => Int.natCast_nonneg _) (fun root _ op hop htoken => absurd htoken (hends op hop)) hpass
  rwa [List.append_nil, Nat.zero_add] at hruns

/-- The function reads every expression, in one way: that of the one tree in which the expression is
grouped. -/
theorem Climbs.runs_iff (hpolicy : ∀ i token p choice way way', policy i token p choice way →
      policy i token p choice way' → way = way') (hinput : table.Expression input) :
    ∃ tree : OperatorTree, tree.Grouped table ∧ tree.tokens = input ∧
      (∀ other : OperatorTree, other.Grouped table → other.tokens = input → other = tree) ∧
      ∀ j trace, model.Runs most policy input 0 function.body 0 j trace ↔
        j = input.length ∧ trace = tree.trace rule := by
  obtain ⟨tree, hgrouped, rfl⟩ := OperatorTree.exists_grouped hdistinct hinput
  have hruns := h.runs hdistinct hgrouped
  refine ⟨tree, hgrouped, rfl, fun other hother htokens => ?_, fun j trace => ⟨fun hother => ?_, ?_⟩⟩
  · have hruns' := h.runs hdistinct hother
    rw [htokens] at hruns'
    exact hother.eq_of_trace hdistinct hgrouped (hruns'.unique hpolicy hruns).2
  · exact hother.unique hpolicy hruns
  · rintro ⟨rfl, rfl⟩
    exact hruns

end Climbs

end ParserModel

theorem Policy.greedy_unique (i : Nat) (token p : Int) (choice : Choice) (way way' : Option Nat)
    (h : Policy.greedy i token p choice way) (h' : Policy.greedy i token p choice way') : way = way' :=
  h.symm.trans h'

end GrammarCompiler
