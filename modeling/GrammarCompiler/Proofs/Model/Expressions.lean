import GrammarCompiler.Proofs.Model.Choices
import GrammarCompiler.Proofs.Model.Climbing
import GrammarCompiler.Proofs.Model.Dispatch

/-!
# The code of a rule for expressions

A block of operands, and behind it a loop around a block of operators, climbs by precedence
(`ParserModel.Source.climbs`). The next token never settles the choices about operators, since these
begin with tests of the precedence; where it settles the choice between operands, it does so by the
tokens that the operands are.
-/

namespace GrammarCompiler

namespace ParserModel

/-- The steps of an operator behind its first operand. -/
def operatorSteps (rule : String) (count : Nat) (op : Operator) : List Operation :=
  [.precedence (op.precedence count), .matchToken op.token none,
    .invoke rule (some (op.nextPrecedence count)) none]

/-- Steps that read a token, maybe behind actions. -/
inductive IsOperand (token : Int) : List Operation → Prop
  | token : IsOperand token [.matchToken token none]
  | action {text : String} {ops : List Operation} : IsOperand token ops →
      IsOperand token (.action text :: ops)

theorem IsOperand.opens_iff {t : Int} {ops : List Operation} (h : IsOperand t ops) {p token : Int} :
    Operation.opens p token ops = true ↔ t = token := by
  induction h with
  | token => rw [Operation.opens, beq_iff_eq]
  | action _ ih => rw [Operation.opens, ih]

theorem IsOperand.runs {t : Int} {ops : List Operation} (h : IsOperand t ops) {model : ParserModel}
    {most : Int} {policy : Policy} {input : List Int} {p : Int} {i : Nat} (hinput : tokenAt input i = t) :
    model.Runs most policy input p ops i (i + 1) [.token t] := by
  induction h with
  | token => exact .token hinput .done
  | action _ ih => exact .action ih

theorem opens_operatorSteps {rule : String} {count : Nat} {op : Operator} {p token : Int} :
    Operation.opens p token (operatorSteps rule count op) = true ↔
      p ≤ op.precedence count ∧ op.token = token := by
  rw [operatorSteps, Operation.opens, Operation.opens, Bool.and_eq_true, decide_eq_true_eq, beq_iff_eq]

namespace Source

section Shown

variable {source : Source} {a b : Nat}

theorem Laid.split {ops ops' : List Operation} {c : Nat} (h : Laid source (ops ++ ops') a c) :
    ∃ b, Laid source ops a b ∧ Laid source ops' b c := by
  induction ops generalizing a with
  | nil => exact ⟨a, .nil (.refl source a), h⟩
  | cons op ops ih =>
      cases h with
      | cons hpass hstep hrest =>
          obtain ⟨b, hfront, hback⟩ := ih hrest
          exact ⟨b, .cons hpass hstep hfront, hback⟩

/-- The network shows an operand where its steps are laid out. -/
theorem Laid.begins_operand {t : Int} {ops : List Operation} (hops : IsOperand t ops)
    (h : Laid source ops a b) : source.Begins (a, []) t := by
  induction hops generalizing a with
  | token =>
      cases h with
      | cons hpass hstep _ =>
          cases hstep with
          | token hhas => exact (Begins.of_reads hhas rfl []).of_steps (hpass [])
  | action _ ih =>
      cases h with
      | cons hpass hstep hrest =>
          cases hstep with
          | action hhas => exact (ih hrest).of_steps ((hpass []).tail (.action (hhas.leaves [])))

/-- The network shows a predicate where a test of the precedence is laid out. -/
theorem Laid.shows_invalid {q : Int} {ops : List Operation} (h : Laid source (.precedence q :: ops) a b) :
    source.network.Shows (a, []) Symbol.invalid := by
  cases h with
  | cons hpass hstep _ =>
      cases hstep with
      | precedence hhas =>
          exact or_self_iff.mp ((Begins.of_predicate hhas rfl Symbol.invalid []).of_steps (hpass []))

/-- The choices that are made of operands heed the next token. -/
theorem Laid.dispatch_operand {choice : Choice} {ops : List Operation}
    (h : Laid source (.choice choice :: ops) a b) (hblock : choice.kind.isBlock = true)
    (hll1 : choice.kind.isLL1 = true) {k : Nat} {alt : AltCode} (halt : choice.alts[k]? = some alt)
    {t : Int} (hoperand : IsOperand t alt.ops) : choice.dispatch t = some k := by
  have hk : k < choice.alts.length := (List.getElem?_eq_some_iff.mp halt).1
  cases h with
  | cons _ hstep _ =>
      cases hstep with
      | block _ _ _ _ hsettles halts =>
          obtain ⟨hinvalid, hshows⟩ := hsettles.enter hll1 k hk
          exact hshows t (((halts k alt halt).begins_operand hoperand).resolve_right hinvalid)
      | star hstar => rw [ChoiceKind.isStar_of_isBlock hblock] at hstar; cases hstar
      | plus hplus => rw [ChoiceKind.isPlus_of_isBlock hblock] at hplus; cases hplus

/-- The next token does not settle a choice that leads to a predicate. -/
theorem Laid.not_isLL1 {choice : Choice} {ops : List Operation}
    (h : Laid source (.choice choice :: ops) a b) (hplus : choice.kind.isPlus = false) {k : Nat}
    {alt : AltCode} (halt : choice.alts[k]? = some alt)
    (hshows : ∀ {a b : Nat}, Laid source alt.ops a b → source.network.Shows (a, []) Symbol.invalid) :
    choice.kind.isLL1 = false ∧ source.network.Shows (a, []) Symbol.invalid := by
  have hk : k < choice.alts.length := (List.getElem?_eq_some_iff.mp halt).1
  have hnot : ∀ {targets : Nat → Nat} {exit : Option Nat}, source.Settles choice targets exit →
      source.network.Shows (targets k, []) Symbol.invalid → choice.kind.isLL1 = false := by
    intro targets exit hsettles hinvalid
    by_contra hll1
    exact (hsettles.enter (Bool.not_eq_false _ ▸ hll1) k hk).1 hinvalid
  cases h with
  | cons hpass hstep _ =>
      cases hstep with
      | block _ _ hto _ hsettles halts | star _ hto _ hsettles halts =>
          have hinvalid := hshows (halts k alt halt)
          exact ⟨hnot hsettles hinvalid, .of_steps ((hpass.trans (hto k hk)) []) hinvalid⟩
      | plus hplus' => rw [hplus] at hplus'; cases hplus'

end Shown

section Blocks

variable {source : Source} {model : ParserModel} {most : Int} {input : List Int} {p : Int}
  {ops : List Operation} {i j : Nat} {trace : List Trace} {token : Nat} {site : DecisionSite}
  {codes : List AltCode}

/-- A block is one alternative or a choice. -/
theorem block_cases (hfound : codes.length ≠ 1 → ∃ d, source.network.decisionAt? token site = some d) :
    (∃ code, codes = [code] ∧ source.block token site codes = code.ops) ∨
      ∃ d, source.block token site codes = [.choice (source.choice none d codes)] := by
  by_cases hone : codes.length = 1
  · obtain ⟨code, rfl⟩ := List.length_eq_one_iff.mp hone
    exact .inl ⟨code, rfl, rfl⟩
  · obtain ⟨d, hd⟩ := hfound hone
    refine .inr ⟨d, ?_⟩
    unfold block
    split
    · exact absurd rfl hone
    · exact choiceAt_eq hd ..

variable (hfound : codes.length ≠ 1 → ∃ d, source.network.decisionAt? token site = some d)

include hfound

theorem opens_block {t : Int} :
    Operation.opens p t (source.block token site codes) = codes.any (·.opens p t) := by
  rcases block_cases hfound with ⟨code, rfl, hblock⟩ | ⟨d, hblock⟩
  · rw [hblock, List.any_cons, List.any_nil, Bool.or_false, AltCode.opens_eq]
  · rw [hblock, Operation.opens, choice, Choice.opens, AltCode.opensAny_eq]

/-- A block is run through an alternative that begins with the next token. -/
theorem runs_block (hopens : ∃ code ∈ codes, code.opens p (tokenAt input i) = true)
    (hheeds : ∀ d, source.block token site codes = [.choice (source.choice none d codes)] →
      (source.choice none d codes).kind.isLL1 = true → ∀ k code, codes[k]? = some code →
        code.opens p (tokenAt input i) = true →
          (source.choice none d codes).dispatch (tokenAt input i) = some k)
    (hruns : ∀ code ∈ codes, code.opens p (tokenAt input i) = true →
      model.Runs most .greedy input p (code.ops ++ ops) i j trace) :
    model.Runs most .greedy input p (source.block token site codes ++ ops) i j trace := by
  rcases block_cases hfound with ⟨code, rfl, hblock⟩ | ⟨d, hblock⟩
  · rw [hblock]
    obtain ⟨code', hcode, hopens⟩ := hopens
    obtain rfl := List.mem_singleton.mp hcode
    exact hruns _ hcode hopens
  · have hkind : (source.choice none d codes).kind.isBlock = true := source.isBlock_choice none d codes
    have hway : ∃ k code, codes[k]? = some code ∧ code.opens p (tokenAt input i) = true ∧
        Policy.greedy i (tokenAt input i) p (source.choice none d codes) (some k) := by
      by_cases hll1 : (source.choice none d codes).kind.isLL1 = true
      · obtain ⟨code, hcode, hopens⟩ := hopens
        obtain ⟨k, hk⟩ := List.mem_iff_getElem?.mp hcode
        exact ⟨k, code, hk, hopens, (if_pos hll1).trans (hheeds d hblock hll1 k code hk hopens)⟩
      · obtain ⟨k, hk⟩ := Option.isSome_iff_exists.mp
          ((List.findIdx?_isSome (p := fun code : AltCode => code.opens p (tokenAt input i))).trans
            (List.any_eq_true.mpr hopens))
        obtain ⟨hlt, hopens, -⟩ := List.findIdx?_eq_some_iff_getElem.mp hk
        exact ⟨k, codes[k], List.getElem?_eq_getElem hlt, hopens, (if_neg hll1).trans hk⟩
    obtain ⟨k, code, hcode, hopens, hway⟩ := hway
    rw [hblock]
    refine .enter (ChoiceKind.isPlus_of_isBlock hkind) hway hcode ?_
    rw [Choice.behind, ChoiceKind.isStar_of_isBlock hkind]
    exact hruns code (List.mem_of_getElem? hcode) hopens

end Blocks

/-! ## Climbing -/

def ReadsOperands (table : OperatorTable) (codes : List AltCode) : Prop :=
  (∀ t ∈ table.primaries, ∃ code ∈ codes, IsOperand t code.ops) ∧
    ∀ code ∈ codes, ∃ t ∈ table.primaries, IsOperand t code.ops

def ReadsOperators (rule : String) (table : OperatorTable) (codes : List AltCode) : Prop :=
  (∀ op ∈ table.operators, ∃ code ∈ codes, code.ops = operatorSteps rule table.count op) ∧
    ∀ code ∈ codes, ∃ op ∈ table.operators, code.ops = operatorSteps rule table.count op

section Climbs

variable {source : Source} {model : ParserModel} {rule : String} {table : OperatorTable}
  {token : Nat} {site : DecisionSite} {codes : List AltCode}
  (hfound : codes.length ≠ 1 → ∃ d, source.network.decisionAt? token site = some d)

include hfound

/-- A block of operands reads every operand. -/
theorem ReadsOperands.runs (hcodes : ReadsOperands table codes) {a b : Nat}
    (hlaid : source.Laid (source.block token site codes) a b) {most : Int} {input : List Int} {p : Int}
    {i : Nat} (hinput : tokenAt input i ∈ table.primaries) :
    model.Runs most .greedy input p (source.block token site codes) i (i + 1)
      [.token (tokenAt input i)] := by
  have hopens : ∀ code ∈ codes, code.opens p (tokenAt input i) = true →
      IsOperand (tokenAt input i) code.ops := by
    intro code hcode hopens
    obtain ⟨t, -, hoperand⟩ := hcodes.2 code hcode
    rw [AltCode.opens_eq, hoperand.opens_iff] at hopens
    exact hopens ▸ hoperand
  obtain ⟨code, hcode, hoperand⟩ := hcodes.1 _ hinput
  rw [← List.append_nil (source.block token site codes)]
  refine runs_block hfound ⟨code, hcode, ?_⟩ (fun d hblock hll1 k code hk hcode => ?_)
    fun code hcode hcodeOpens => ?_
  · rw [AltCode.opens_eq, hoperand.opens_iff]
  · rw [hblock] at hlaid
    exact hlaid.dispatch_operand (source.isBlock_choice none d codes) hll1 hk
      (hopens code (List.mem_of_getElem? hk) hcode)
  · rw [List.append_nil]
    exact (hopens code hcode hcodeOpens).runs rfl

/-- A predicate is shown in front of operators. -/
theorem ReadsOperators.shows_invalid (hcodes : ReadsOperators rule table codes) (hnonempty : codes ≠ [])
    {a b : Nat} (hlaid : source.Laid (source.block token site codes) a b) :
    source.network.Shows (a, []) Symbol.invalid := by
  have hshows : ∀ code ∈ codes, ∀ {a b : Nat}, source.Laid code.ops a b →
      source.network.Shows (a, []) Symbol.invalid := by
    intro code hcode a b hlaid
    obtain ⟨op, -, hops⟩ := hcodes.2 code hcode
    rw [hops] at hlaid
    exact hlaid.shows_invalid
  rcases block_cases hfound with ⟨code, rfl, hblock⟩ | ⟨d, hblock⟩
  · rw [hblock] at hlaid
    exact hshows code (List.mem_singleton_self _) hlaid
  · rw [hblock] at hlaid
    have hplus := ChoiceKind.isPlus_of_isBlock (source.isBlock_choice none d codes)
    obtain ⟨code, rest, rfl⟩ := List.exists_cons_of_ne_nil hnonempty
    exact (hlaid.not_isLL1 hplus (k := 0) rfl (hshows code (List.mem_cons_self ..))).2

omit hfound in
/-- The next token does not settle the choice between operators. -/
theorem ReadsOperators.not_isLL1 (hcodes : ReadsOperators rule table codes) (hnonempty : codes ≠ [])
    {d : Nat} (hblock : source.block token site codes = [.choice (source.choice none d codes)])
    {a b : Nat} (hlaid : source.Laid (source.block token site codes) a b) :
    (source.choice none d codes).kind.isLL1 = false := by
  rw [hblock] at hlaid
  obtain ⟨code, rest, rfl⟩ := List.exists_cons_of_ne_nil hnonempty
  obtain ⟨op, -, hops⟩ := hcodes.2 code (List.mem_cons_self ..)
  refine (hlaid.not_isLL1 (ChoiceKind.isPlus_of_isBlock (source.isBlock_choice none d _)) (k := 0) rfl
    fun hlaid => ?_).1
  rw [hops] at hlaid
  exact hlaid.shows_invalid

end Climbs

/-- A block of operands with a loop around a block of operators behind it climbs by precedence. -/
theorem climbs {source : Source} {model : ParserModel} {rule : String} {table : OperatorTable}
    (hdistinct : table.Distinct) {token token' : Nat} {site site' : DecisionSite}
    {primary operators : List AltCode}
    (hfound : primary.length ≠ 1 → ∃ d, source.network.decisionAt? token site = some d)
    (hfound' : operators.length ≠ 1 → ∃ d, source.network.decisionAt? token' site' = some d)
    (hprimary : ReadsOperands table primary) (hoperators : ReadsOperators rule table operators)
    (hnonempty : operators ≠ []) {num d : Nat} {loop : Choice}
    (hloop : loop = source.choice (some .closure) d [⟨num, source.block token' site' operators⟩])
    {function : RuleFunction} (hfunction : model.function? rule = some function)
    (hbody : function.body = source.block token site primary ++ [.choice loop]) {a b : Nat}
    (hlaid : source.Laid function.body a b) (most : Int) :
    model.Climbs most .greedy rule table function (source.block token site primary) loop := by
  rw [hbody] at hlaid
  obtain ⟨_, hfront, hloopLaid⟩ := hlaid.split
  have hstar : loop.kind.isStar = true := hloop ▸ ChoiceKind.isStar_choose.mpr rfl
  have hplus := ChoiceKind.isPlus_of_isStar hstar
  have halts : loop.alts[0]? = some ⟨num, source.block token' site' operators⟩ := hloop ▸ rfl
  have hll1 : loop.kind.isLL1 = false :=
    (hloopLaid.not_isLL1 hplus halts (hoperators.shows_invalid hfound' hnonempty)).1
  -- the loop is entered if one of the operators is
  have hguess : ∀ p t, loop.guess p t = if operators.any (·.opens p t) then some 0 else none := by
    intro p t
    rw [hloop, Choice.guess, choice, List.findIdx?_singleton, AltCode.opens_eq, opens_block hfound']
  obtain ⟨_, _, hinner⟩ : ∃ c c', source.Laid (source.block token' site' operators) c c' := by
    cases hloopLaid with
    | cons _ hstep _ =>
        cases hstep with
        | block hno => rw [hstar] at hno; cases hno
        | star _ _ _ _ hlaid => exact ⟨_, _, hlaid 0 _ halts⟩
        | plus hno => rw [hplus] at hno; cases hno
  refine ⟨hfunction, hbody, fun hinput => hprimary.runs hfound hfront hinput, ?_, ?_⟩
  · intro input p i j op trace hop htoken hle hruns
    obtain ⟨code, hcode, hops⟩ := hoperators.1 op hop
    have hopens : code.opens p (tokenAt input i) = true := by
      rw [AltCode.opens_eq, hops]
      exact opens_operatorSteps.mpr ⟨hle, htoken.symm⟩
    refine .enter (k := 0) hplus ?_ halts ?_
    · unfold Policy.greedy
      rw [hll1, if_neg Bool.false_ne_true, hguess, if_pos (List.any_eq_true.mpr ⟨code, hcode, hopens⟩)]
    rw [Choice.behind, hstar, if_pos rfl, List.append_nil]
    refine runs_block hfound' ⟨code, hcode, hopens⟩ (fun d hblock hno => ?_)
      fun code' hcode' hopens' => ?_
    · rw [hoperators.not_isLL1 hnonempty hblock hinner] at hno
      cases hno
    · obtain ⟨op', hop', hops'⟩ := hoperators.2 code' hcode'
      rw [AltCode.opens_eq, hops', opens_operatorSteps] at hopens'
      obtain rfl := hdistinct.tokens _ hop' _ hop (hopens'.2.trans htoken)
      rw [hops']
      exact .precedence hle hruns
  · intro input p i hpass
    refine .pass hplus (ChoiceKind.isBlock_of_isStar hstar) ?_ .done
    unfold Policy.greedy
    rw [hll1, if_neg Bool.false_ne_true, hguess, if_neg]
    intro hany
    obtain ⟨code, hcode, hopens⟩ := List.any_eq_true.mp hany
    obtain ⟨op, hop, hops⟩ := hoperators.2 code hcode
    rw [AltCode.opens_eq, hops, opens_operatorSteps] at hopens
    exact absurd hopens.1 (Int.not_le.mpr (hpass op hop hopens.2.symm))

end Source

end ParserModel

end GrammarCompiler
