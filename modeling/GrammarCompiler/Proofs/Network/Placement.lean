import GrammarCompiler.Proofs.Network.Parts
import GrammarCompiler.Proofs.Network.Tidy

/-!
# Where the elements of a rule are

`Placed` says that an element is found between two states of a network, and which decisions were
made for it. It follows the shape of the element: what stands inside has its own place, and the
states around it have the transitions of the construct and no others.

A part is in its place as soon as it is built, except for its last state, which leads nowhere
until the part around it is. So a part is followed up to a network in which nothing happens to
its states any more but to its last one (`Completes`), and there it is placed (`Puts`).
-/

namespace GrammarCompiler

namespace Network

/-! ## Decisions -/

/-- A decision that is made: what it is about, and its state. -/
abbrev Made := (Nat × DecisionSite) × Nat

/-- Where rules begin and end, the states of decisions, and what the decisions are about. -/
structure Record where
  starts : Array Nat
  stops : Array Nat
  decisions : List Nat
  sites : List ((Nat × DecisionSite) × Nat)

/-- What a network knows about its rules and decisions. -/
def record (network : Network) : Record :=
  ⟨network.ruleStarts, network.ruleStops, network.decisions.toList, network.sites⟩

def file (record : Record) (made : Made) : Record :=
  { record with
    decisions := record.decisions ++ [made.2]
    sites := setSite made.1 record.decisions.length record.sites }

theorem rules_foldl_file (made : List Made) (record : Record) :
    (made.foldl file record).starts = record.starts ∧
      (made.foldl file record).stops = record.stops := by
  induction made generalizing record with
  | nil => exact ⟨rfl, rfl⟩
  | cons m made ih => exact ih (file record m)

theorem decisions_foldl_file (made : List Made) (record : Record) :
    (made.foldl file record).decisions = record.decisions ++ made.map (·.2) := by
  induction made generalizing record with
  | nil => exact (List.append_nil _).symm
  | cons m made ih =>
      rw [List.foldl_cons, ih]
      exact List.append_assoc ..

section Record

variable (n : Network)

@[simp]
theorem record_addState (kind : StateKind) (rule : Nat) :
    (n.addState kind rule).record = n.record := rfl

@[simp]
theorem record_modifyState (id : Nat) (f : State → State) :
    (n.modifyState id f).record = n.record := rfl

@[simp]
theorem record_addTransition (id : Nat) (t : Transition) :
    (n.addTransition id t).record = n.record := rfl

@[simp]
theorem record_link (source target : Nat) : (n.link source target).record = n.record := rfl

theorem record_decide (id token : Nat) (site : DecisionSite) :
    (n.decide id token site).record = file n.record ((token, site), id) := by
  unfold record decide addSite addDecision file decisionCount
  simp only [Array.length_toList, Record.mk.injEq]
  exact ⟨rfl, rfl, Array.toList_push .., rfl⟩

@[simp]
theorem record_single (rule : Nat) (t : Transition) : (n.single rule t).record = n.record := rfl

@[simp]
theorem record_chain (parts : List Handle) : (n.chain parts).record = n.record := by
  induction parts generalizing n with
  | nil => rfl
  | cons a rest ih =>
      cases rest with
      | nil => rfl
      | cons b rest => exact ih (n.link a.right b.left)

@[simp]
theorem record_fan (start finish : Nat) (parts : List Handle) :
    (fan start finish n parts).record = n.record := by
  induction parts generalizing n with
  | nil => rfl
  | cons part parts ih => exact ih ((n.link start part.left).link part.right finish)

@[simp]
theorem record_block (rule start : Nat) (parts : List Handle) :
    (n.block rule start parts).record = n.record :=
  record_fan ..

@[simp]
theorem record_twoWays (id again finish : Nat) (greedy : Bool) :
    (n.twoWays id again finish greedy).record = n.record := by
  unfold twoWays
  split <;> rfl

theorem record_choice (rule token : Nat) (site : DecisionSite) (parts : List Handle) :
    (n.choice rule token site parts).record = file n.record ((token, site), n.size) := by
  unfold choice
  rw [record_block, record_decide, record_addState]

/-- The decision between several parts. -/
def among (token : Nat) (site : DecisionSite) (count id : Nat) : List Made :=
  if 1 < count then [((token, site), id)] else []

theorem record_startBlock (kind : StateKind) (rule token : Nat) (site : DecisionSite)
    (parts : List Handle) :
    (n.startBlock kind rule token site parts).record =
      (among token site parts.length n.size).foldl file n.record := by
  unfold startBlock decideAmong among
  rw [record_block]
  split
  · rw [record_decide, record_addState]
    rfl
  · rfl

theorem record_optional (rule : Nat) (greedy : Bool) (token : Nat) (parts : List Handle) :
    (n.optional rule greedy token parts).record = file n.record ((token, .optional), n.size) := by
  unfold optional insertTransition
  dsimp only
  split
  · rw [record_link, record_modifyState, record_choice]
  · rw [record_modifyState, record_modifyState, record_choice]

theorem record_star (scope : Scope) (greedy : Bool) (token first : Nat) (parts : List Handle) :
    (n.star scope greedy token first parts).record =
      (among token .starBlock parts.length n.size ++
        [((first, DecisionSite.starLoopEntry), n.size + 2)]).foldl file n.record := by
  unfold star
  simp only [record_link, record_twoWays, starStates_eq, record_modifyState, record_addState,
    record_decide, record_startBlock, List.foldl_append, List.foldl_cons, List.foldl_nil]

theorem record_plus (scope : Scope) (greedy : Bool) (token first : Nat) (parts : List Handle) :
    (n.plus scope greedy token first parts).record =
      (among token .plusBlock parts.length n.size ++
        [((first, DecisionSite.plusLoopBack), n.size + 2)]).foldl file n.record := by
  unfold plus
  simp only [record_link, record_twoWays, plusStates_eq, record_modifyState, record_addState,
    record_decide, record_startBlock, List.foldl_append, List.foldl_cons, List.foldl_nil]

end Record

/-! ## Decisions of constructs -/

section Tidy

variable {n n' : Network} {parts : List Handle} {made : List Made}

/-- Decisions stay, and those that were made are there. -/
theorem mem_decisions_of_record (h : n'.record = made.foldl file n.record) {id : Nat} :
    id ∈ n'.decisions.toList ↔ id ∈ n.decisions.toList ∨ id ∈ made.map (·.2) := by
  rw [show n'.decisions.toList = _ from congrArg Record.decisions h, decisions_foldl_file]
  exact List.mem_append

/-- A construct that makes decisions and adds its own states. -/
theorem Tidy.construct (parts : List Handle) (h : n.Tidy) (hneat : n'.Neat)
    (hrecord : n'.record = made.foldl file n.record)
    (hkeeps : ∀ id < n.size, id ∉ parts.map (·.right) → n'.ways? id = n.ways? id)
    (hrights : ∀ p ∈ parts, n'.Decides p.right)
    (hnew : ∀ id, n.size ≤ id → id < n'.size → n'.Decides id) : n'.Tidy :=
  h.add parts hneat (fun _ hid => (mem_decisions_of_record hrecord).mpr (.inl hid)) hkeeps hrights
    hnew

theorem Decides.of_made (h : n'.record = made.foldl file n.record) {id : Nat}
    (hid : id ∈ made.map (·.2)) : n'.Decides id :=
  .of_mem ((mem_decisions_of_record h).mpr (.inr hid))

theorem Tidy.single (h : n.Tidy) (rule : Nat) {t : Transition}
    (ht : ∀ call ∈ t.call?, call.2 = n.size + 1) : (n.single rule t).Tidy := by
  obtain ⟨hleft, hright⟩ := n.ways?_single rule t
  have hrecord : (n.single rule t).record = ([] : List Made).foldl file n.record :=
    n.record_single rule t
  refine h.construct [] (h.neat.single rule ht) hrecord
    (fun id hid _ => n.ways?_single_lt rule t hid) nofun fun id hge hlt => ?_
  rw [size_single] at hlt
  obtain rfl | rfl : id = n.size ∨ id = n.size + 1 := by omega
  · exact .one hleft
  · exact .none hright

theorem Tidy.choice (h : n.Tidy) (hloose : n.Loose parts) (rule token : Nat)
    (site : DecisionSite) : (n.choice rule token site parts).Tidy := by
  have hblock := blocked_choice hloose rule token site
  have hrecord : _ = [((token, site), n.size)].foldl file n.record :=
    n.record_choice rule token site parts
  refine h.construct parts (h.neat.choice ..) hrecord hblock.before
    (fun p hp => .one (hblock.rights p hp)) fun id hge hlt => ?_
  rw [hblock.size] at hlt
  obtain rfl | rfl : id = n.size ∨ id = n.size + 1 := by omega
  · exact .of_made hrecord (List.mem_singleton_self _)
  · exact .none hblock.finish

theorem Tidy.optional (h : n.Tidy) (hloose : n.Loose parts) (rule : Nat) (greedy : Bool)
    (token : Nat) : (n.optional rule greedy token parts).Tidy := by
  have hblock := blocked_choice hloose rule token .optional
  have hrecord : _ = [((token, .optional), n.size)].foldl file n.record :=
    n.record_optional rule greedy token parts
  have hne : ∀ id ≠ n.size, (n.optional rule greedy token parts).ways? id =
      (n.choice rule token .optional parts).ways? id :=
    fun id hid => n.ways?_optional_ne rule token greedy hid
  refine h.construct parts (h.neat.optional ..) hrecord (fun id hid hnot => ?_)
    (fun p hp => ?_) fun id hge hlt => ?_
  · rw [hne id (Nat.ne_of_lt hid), hblock.before id hid hnot]
  · exact .one ((hne _ (Nat.ne_of_lt (hloose.right_lt p hp))).trans (hblock.rights p hp))
  · rw [size_optional] at hlt
    obtain rfl | rfl : id = n.size ∨ id = n.size + 1 := by omega
    · exact .of_made hrecord (List.mem_singleton_self _)
    · exact .none ((hne _ (Nat.succ_ne_self _)).trans hblock.finish)

/-- The block inside a loop begins with a decision if it has several parts. -/
theorem decides_among {id token : Nat} {site : DecisionSite} {reluctant : Bool} {made : List Made}
    (hrecord : n'.record = (among token site parts.length id ++ made).foldl file n.record)
    (hways : n'.ways? id = some (reluctant, toParts parts)) : n'.Decides id := by
  refine .of_ways hways fun hlength => ?_
  rw [toParts, List.length_map] at hlength
  refine (mem_decisions_of_record hrecord).mpr (.inr ?_)
  rw [among, if_pos (Nat.lt_of_succ_le hlength)]
  exact List.mem_cons_self

theorem Tidy.star (h : n.Tidy) (hloose : n.Loose parts) (scope : Scope) (greedy : Bool)
    (token first : Nat) : (n.star scope greedy token first parts).Tidy := by
  have hstar := starred_star scope greedy token first hloose
  have hrecord := n.record_star scope greedy token first parts
  refine h.construct parts (h.neat.star ..) hrecord hstar.before
    (fun p hp => .one (hstar.rights p hp)) fun id hge hlt => ?_
  rw [hstar.size] at hlt
  obtain rfl | rfl | rfl | rfl | rfl : id = n.size ∨ id = n.size + 1 ∨ id = n.size + 2 ∨
    id = n.size + 3 ∨ id = n.size + 4 := by omega
  · exact decides_among hrecord hstar.start
  · exact .one hstar.blockEnd
  · exact .of_made hrecord (by simp)
  · exact .none hstar.finish
  · exact .one hstar.back

theorem Tidy.plus (h : n.Tidy) (hloose : n.Loose parts) (scope : Scope) (greedy : Bool)
    (token first : Nat) : (n.plus scope greedy token first parts).Tidy := by
  have hplus := plussed_plus scope greedy token first hloose
  have hrecord := n.record_plus scope greedy token first parts
  refine h.construct parts (h.neat.plus ..) hrecord hplus.before
    (fun p hp => .one (hplus.rights p hp)) fun id hge hlt => ?_
  rw [hplus.size] at hlt
  obtain rfl | rfl | rfl | rfl : id = n.size ∨ id = n.size + 1 ∨ id = n.size + 2 ∨
    id = n.size + 3 := by omega
  · exact decides_among hrecord hplus.start
  · exact .one hplus.blockEnd
  · exact .of_made hrecord (by simp)
  · exact .none hplus.finish

end Tidy

/-! ## Places -/

def Scope.callee? (scope : Scope) (name : String) : Option Rule :=
  (scope.grammar.rule? name).filter (·.isLexerRule == (scope.kind == .lexer))

/-- The transition by which an element is read, made for the state it leads to. -/
def reader? (scope : Scope) (target : Nat) : Element → Option Transition
  | .tokenRef name _ _ =>
    if scope.kind = .lexer then none
    else some (.atom target ((scope.vocabulary.type? name).getD Symbol.invalid))
  | .quotation literal =>
    if scope.kind = .lexer then none
    else some (.atom target ((scope.vocabulary.literalType? literal.value).getD Symbol.invalid))
  | .range first last _ => some (.range target (firstSymbol first) (firstSymbol last))
  | .wildcard _ _ =>
    some (if scope.kind = .lexer then .set target (.range 0 Symbol.lastChar) else .wildcard target)
  | .set elements _ => some (.set target (addAllSymbols scope .empty elements))
  | .not operand _ => some (.notSet target (operandSymbols scope operand))
  | _ => none

section Placed

variable (network : Network) (scope : Scope)

/-- The transition of an element without parts, made for the state it leads to. -/
inductive Leaf (target : Nat) : Element → Transition → Prop
  | reads {e : Element} {t : Transition} : reader? scope target e = some t → Leaf target e t
  | call {e : Element} {name : String} {precedence : Int} {callee : Rule} {start : Nat} :
    Dialect.calls? scope.kind e = some (name, precedence) → scope.callee? name = some callee →
      network.ruleStarts[callee.index]? = some start →
      Leaf target e (.rule start callee.index precedence target)
  | missing {e : Element} {name : String} {precedence : Int} :
    Dialect.calls? scope.kind e = some (name, precedence) → scope.callee? name = none →
      Leaf target e (.epsilon target)
  | action (code : Snippet) (index : Nat) :
    Leaf target (.action code) (.action target scope.rule index)
  | predicate {code : Snippet} (index : Nat) : precedenceIn? code.options = none →
    Leaf target (.predicate code) (.predicate target scope.rule index)
  | precedence {code : Snippet} {demanded : Int} : precedenceIn? code.options = some demanded →
    Leaf target (.predicate code) (.precedence target demanded)
  | command (name : String) (arg : Option String) (extent : Extent) :
    Leaf target (.command name arg extent) (.epsilon target)
  | epsilon (extent : Extent) : Leaf target (.epsilon extent) (.epsilon target)

/-- States between which characters are read one after another. -/
inductive Spelt : Nat → List Char → Nat → Prop
  | nil (id : Nat) : Spelt id [] id
  | cons {id next finish : Nat} {c : Char} {cs : List Char} :
    network.ways? id = some (false, [.atom next (Symbol.ofChar c)]) → Spelt next cs finish →
      Spelt id (c :: cs) finish

/-- Parts one behind the other, from the first state of the first one to the last state of the
last one. -/
inductive Joined : List Handle → Handle → Prop
  | nothing {part : Handle} : network.ways? part.left = some (false, [.epsilon part.right]) →
    Joined [] part
  | last (part : Handle) : Joined [part] part
  | cons {part next whole : Handle} {rest : List Handle} :
    network.ways? part.right = some (false, [.epsilon next.left]) → Joined (next :: rest) whole →
      Joined (part :: next :: rest) ⟨part.left, whole.right⟩

/-- Parts side by side with a decision between them, or a single part by itself. -/
inductive Chosen (token : Nat) (site : DecisionSite) : List Handle → Handle → List Made → Prop
  | alone (part : Handle) : Chosen token site [part] part []
  | among {parts : List Handle} {whole : Handle} : parts.length ≠ 1 →
    network.ways? whole.left = some (false, toParts parts) →
    (∀ p ∈ parts, network.ways? p.right = some (false, [.epsilon whole.right])) →
      Chosen token site parts whole [((token, site), whole.left)]

/-- Parts under a suffix. In a star the block begins at `start` and ends at `inner`; the loop
goes from there by `back` to its entry. In a plus the block comes first, and `back` decides. -/
inductive Under (token first : Nat) (greedy : Bool) :
    Suffix → List Handle → Handle → List Made → Prop
  | optional {parts : List Handle} {whole : Handle} :
    network.ways? whole.left = some (!greedy, toOptional parts whole.right greedy) →
    (∀ p ∈ parts, network.ways? p.right = some (false, [.epsilon whole.right])) →
      Under token first greedy .optional parts whole [((token, .optional), whole.left)]
  | star {parts : List Handle} {whole : Handle} {start inner back : Nat} :
    network.ways? start = some (false, toParts parts) →
    (∀ p ∈ parts, network.ways? p.right = some (false, [.epsilon inner])) →
    network.ways? inner = some (false, [.epsilon back]) →
    network.ways? back = some (false, [.epsilon whole.left]) →
    network.ways? whole.left = some (!greedy, toRound start whole.right greedy) →
      Under token first greedy .closure parts whole
        (among token .starBlock parts.length start ++ [((first, .starLoopEntry), whole.left)])
  | plus {parts : List Handle} {whole : Handle} {inner back : Nat} :
    network.ways? whole.left = some (false, toParts parts) →
    (∀ p ∈ parts, network.ways? p.right = some (false, [.epsilon inner])) →
    network.ways? inner = some (false, [.epsilon back]) →
    network.ways? back = some (!greedy, toRound whole.left whole.right greedy) →
      Under token first greedy .positiveClosure parts whole
        (among token .plusBlock parts.length whole.left ++ [((first, .plusLoopBack), back)])

mutual
/-- An element has its place between the two states of a part. The decisions for it are listed in
the order in which they were made. -/
inductive Placed : Element → Handle → List Made → Prop
  | leaf {e : Element} {part : Handle} {t : Transition} : Leaf network scope part.right e t →
    network.ways? part.left = some (false, [t]) → Placed e part []
  | word {literal : Quotation} {part : Handle} : scope.kind = .lexer → literal.value.toList ≠ [] →
    Spelt network part.left literal.value.toList part.right → Placed (.quotation literal) part []
  | noWord {literal : Quotation} {part : Handle} : scope.kind = .lexer →
    literal.value.toList = [] → network.ways? part.left = some (false, [.epsilon part.right]) →
      Placed (.quotation literal) part []
  | labeled {isList : Bool} {label : String} {labelToken : Nat} {inner : Element}
    {extent : Extent} {part : Handle} {made : List Made} :
    Placed inner part made → Placed (.labeled isList label labelToken inner extent) part made
  | block {alts : List Alt} {options : Options} {extent : Extent} {parts : List Handle}
    {whole : Handle} {made made' : List Made} : PlacedAlts alts parts made →
    Chosen network extent.start .block parts whole made' →
      Placed (.block alts options extent) whole (made ++ made')
  | blockUnder {suffix : Suffix} {greedy : Bool} {alts : List Alt} {options : Options}
    {inner extent : Extent} {parts : List Handle} {whole : Handle} {made made' : List Made} :
    PlacedAlts alts parts made →
    Under network inner.start extent.start greedy suffix parts whole made' →
      Placed (.suffixed suffix greedy (.block alts options inner) extent) whole (made ++ made')
  | under {suffix : Suffix} {greedy : Bool} {inner : Element} {extent : Extent}
    {part whole : Handle} {made made' : List Made} :
    (∀ alts options extent, inner ≠ .block alts options extent) → Placed inner part made →
    Under network inner.extent.start extent.start greedy suffix [part] whole made' →
      Placed (.suffixed suffix greedy inner extent) whole (made ++ made')

/-- Elements have places of their own. -/
inductive PlacedRow : List Element → List Handle → List Made → Prop
  | nil : PlacedRow [] [] []
  | cons {e : Element} {es : List Element} {part : Handle} {parts : List Handle}
    {made made' : List Made} : Placed e part made → PlacedRow es parts made' →
      PlacedRow (e :: es) (part :: parts) (made ++ made')

/-- Alternatives have places of their own, each with its elements one behind the other. -/
inductive PlacedAlts : List Alt → List Handle → List Made → Prop
  | nil : PlacedAlts [] [] []
  | cons {alt : Alt} {alts : List Alt} {row : List Handle} {part : Handle}
    {parts : List Handle} {made made' : List Made} : PlacedRow alt.elements row made →
    Joined network row part → PlacedAlts alts parts made' →
      PlacedAlts (alt :: alts) (part :: parts) (made ++ made')
end

end Placed

/-! ## Building -/

/-- What is still to come leaves the states from `lo` on alone, except for the ends of parts. -/
structure Completes (final after : Network) (lo : Nat) (parts : List Handle) : Prop where
  starts : final.ruleStarts = after.ruleStarts
  ways : ∀ id, lo ≤ id → id < after.size → id ∉ parts.map (·.right) →
    final.ways? id = after.ways? id

/-- Parts are put behind a network and are in their places once it is complete. -/
structure Puts (before after : Network) (parts : List Handle) (made : List Made)
    (placed : Network → Prop) : Prop where
  size_le : before.size ≤ after.size
  below : ∀ id < before.size, after.ways? id = before.ways? id
  behind : ∀ p ∈ parts, before.size ≤ p.right
  loose : after.Loose parts
  record : after.record = made.foldl file before.record
  tidy : before.Tidy → after.Tidy
  placed : ∀ final, Completes final after before.size parts → placed final

/-- A construct makes one part of several. It changes no states but their ends, and adds its
own. -/
structure Combines (before after : Network) (parts : List Handle) (whole : Handle)
    (made : List Made) (placed : Network → Prop) : Prop where
  size_le : before.size ≤ after.size
  keeps : ∀ id < before.size, id ∉ parts.map (·.right) → after.ways? id = before.ways? id
  right : whole.right ∈ parts.map (·.right) ∨ before.size ≤ whole.right
  loose : after.ways? whole.right = some (false, [])
  record : after.record = made.foldl file before.record
  tidy : before.Tidy → after.Tidy
  placed : ∀ final, (∀ id < after.size, id ∈ parts.map (·.right) ∨ before.size ≤ id →
    id ≠ whole.right → final.ways? id = after.ways? id) → placed final

section Puts

variable {n n' n'' : Network} {parts : List Handle} {made made' : List Made}
  {placed placed' : Network → Prop}

theorem starts_of_record (h : n'.record = made.foldl file n.record) :
    n'.ruleStarts = n.ruleStarts :=
  (congrArg Record.starts h).trans (rules_foldl_file ..).1

theorem stops_of_record (h : n'.record = made.foldl file n.record) :
    n'.ruleStops = n.ruleStops :=
  (congrArg Record.stops h).trans (rules_foldl_file ..).2

theorem Puts.mono (h : n.Puts n' parts made placed)
    (hplaced : ∀ final : Network, final.ruleStarts = n.ruleStarts → placed final → placed' final) :
    n.Puts n' parts made placed' :=
  { h with
    placed := fun final hfinal =>
      hplaced final (hfinal.starts.trans (starts_of_record h.record)) (h.placed final hfinal) }

theorem Puts.nil (n : Network) {placed : Network → Prop} (hplaced : ∀ final, placed final) :
    n.Puts n [] [] placed :=
  ⟨Nat.le_refl _, fun _ _ => rfl, nofun, ⟨nofun, List.nodup_nil⟩, rfl, id,
    fun final _ => hplaced final⟩

theorem Puts.cons {part : Handle} (h : n.Puts n' [part] made placed)
    (h' : n'.Puts n'' parts made' placed') :
    n.Puts n'' (part :: parts) (made ++ made') fun final => placed final ∧ placed' final := by
  have hpart := h.loose.ends part (List.mem_singleton.mpr rfl)
  have hlt := n'.lt_of_ways? hpart
  refine ⟨Nat.le_trans h.size_le h'.size_le, fun id hid => ?_, ?_, ⟨?_, ?_⟩, ?_,
    h'.tidy ∘ h.tidy, fun final hfinal => ⟨?_, ?_⟩⟩
  · exact (h'.below id (Nat.lt_of_lt_of_le hid h.size_le)).trans (h.below id hid)
  · exact List.forall_mem_cons.mpr ⟨h.behind part (List.mem_singleton.mpr rfl),
      fun p hp => Nat.le_trans h.size_le (h'.behind p hp)⟩
  · exact List.forall_mem_cons.mpr ⟨(h'.below _ hlt).trans hpart, h'.loose.ends⟩
  · refine List.nodup_cons.mpr ⟨fun hmem => ?_, h'.loose.nodup⟩
    obtain ⟨p, hp, heq⟩ := List.mem_map.mp hmem
    have hge := h'.behind p hp
    rw [heq] at hge
    exact absurd hlt (Nat.not_lt.mpr hge)
  · rw [h'.record, h.record, List.foldl_append]
  · refine h.placed final ⟨hfinal.starts.trans (starts_of_record h'.record), fun id hlo hid hnot => ?_⟩
    rw [hfinal.ways id hlo (Nat.lt_of_lt_of_le hid h'.size_le), h'.below id hid]
    rw [List.map_cons, List.mem_cons, not_or]
    refine ⟨fun heq => hnot (List.mem_singleton.mpr heq), fun hmem => ?_⟩
    obtain ⟨p, hp, rfl⟩ := List.mem_map.mp hmem
    exact absurd (h'.behind p hp) (by omega)
  · refine h'.placed final ⟨hfinal.starts, fun id hlo hid hnot => ?_⟩
    refine hfinal.ways id (Nat.le_trans h.size_le hlo) hid ?_
    rw [List.map_cons, List.mem_cons, not_or]
    exact ⟨Nat.ne_of_gt (Nat.lt_of_lt_of_le hlt hlo), hnot⟩

/-- Parts, and then a construct around them. -/
theorem Puts.combine {whole : Handle} (h : n.Puts n' parts made placed)
    (h' : n'.Combines n'' parts whole made' placed') :
    n.Puts n'' [whole] (made ++ made') fun final => placed final ∧ placed' final := by
  have hrights : ∀ id ∈ parts.map (·.right), n.size ≤ id ∧ id < n'.size := by
    intro id hid
    obtain ⟨p, hp, rfl⟩ := List.mem_map.mp hid
    exact ⟨h.behind p hp, h.loose.right_lt p hp⟩
  refine ⟨Nat.le_trans h.size_le h'.size_le, fun id hid => ?_, ?_, ⟨?_, ?_⟩, ?_,
    h'.tidy ∘ h.tidy, fun final hfinal => ⟨?_, ?_⟩⟩
  · rw [h'.keeps id (Nat.lt_of_lt_of_le hid h.size_le)
      fun hmem => absurd (hrights id hmem).1 (Nat.not_le.mpr hid), h.below id hid]
  · intro p hp
    rw [List.mem_singleton.mp hp]
    rcases h'.right with hmem | hge
    · exact (hrights _ hmem).1
    · exact Nat.le_trans h.size_le hge
  · intro p hp
    rw [List.mem_singleton.mp hp]
    exact h'.loose
  · exact List.nodup_singleton _
  · rw [h'.record, h.record, List.foldl_append]
  · refine h.placed final ⟨hfinal.starts.trans (starts_of_record h'.record), fun id hlo hid hnot => ?_⟩
    rw [hfinal.ways id hlo (Nat.lt_of_lt_of_le hid h'.size_le), h'.keeps id hid hnot]
    intro hmem
    obtain rfl := List.mem_singleton.mp hmem
    rcases h'.right with hright | hge
    · exact hnot hright
    · exact absurd hid (Nat.not_lt.mpr hge)
  · refine h'.placed final fun id hid hwhere hne => ?_
    refine hfinal.ways id ?_ hid fun hmem => hne (List.mem_singleton.mp hmem)
    rcases hwhere with hmem | hge
    · exact (hrights id hmem).1
    · exact Nat.le_trans h.size_le hge

/-- A part by itself is one that combines none. -/
theorem Combines.puts {whole : Handle} (h : n.Combines n' [] whole made placed) :
    n.Puts n' [whole] made placed :=
  ((Puts.nil n fun _ => trivial).combine h).mono fun _ _ h => h.2

end Puts

/-! ## Constructs -/

section Constructs

variable {n : Network} {parts : List Handle}

theorem combines_single (n : Network) (rule : Nat) {t : Transition}
    (ht : ∀ call ∈ t.call?, call.2 = n.size + 1) :
    n.Combines (n.single rule t) [] ⟨n.size, n.size + 1⟩ [] fun final =>
      final.ways? n.size = some (false, [t]) := by
  obtain ⟨hleft, hright⟩ := n.ways?_single rule t
  refine ⟨by rw [size_single]; omega, fun id hid _ => n.ways?_single_lt rule t hid,
    Or.inr (Nat.le_succ _), hright, n.record_single rule t, fun h => h.single rule ht,
    fun final hfinal => ?_⟩
  rw [hfinal _ (by rw [size_single]; omega) (Or.inr (Nat.le_refl _)) (Nat.ne_of_lt (Nat.lt_succ_self _))]
  exact hleft

theorem combines_choice (h : n.Loose parts) (hparts : parts.length ≠ 1) (rule token : Nat)
    (site : DecisionSite) :
    n.Combines (n.choice rule token site parts) parts ⟨n.size, n.size + 1⟩
      [((token, site), n.size)] fun final =>
        Chosen final token site parts ⟨n.size, n.size + 1⟩ [((token, site), n.size)] := by
  have hblock := blocked_choice h rule token site
  have hsize := hblock.size
  refine ⟨by omega, hblock.before, Or.inr (Nat.le_succ _), hblock.finish,
    n.record_choice rule token site parts, fun htidy => htidy.choice h rule token site,
    fun final hfinal => .among hparts ?_ fun p hp => ?_⟩
  · rw [hfinal _ (by omega) (Or.inr (Nat.le_refl _)) (by dsimp only; omega), hblock.start]
  · have hlt := h.right_lt p hp
    rw [hfinal _ (by omega) (Or.inl (List.mem_map_of_mem hp)) (by dsimp only; omega),
      hblock.rights p hp]

theorem combines_alone (part : Handle) (token : Nat) (site : DecisionSite)
    (h : n.Loose [part]) :
    n.Combines n [part] part [] fun final => Chosen final token site [part] part [] :=
  ⟨Nat.le_refl _, fun _ _ _ => rfl, Or.inl (List.mem_singleton.mpr rfl),
    h.ends part (List.mem_singleton.mpr rfl), rfl, id, fun _ _ => .alone part⟩

theorem combines_optional (h : n.Loose parts) (rule : Nat) (greedy : Bool) (token first : Nat) :
    n.Combines (n.optional rule greedy token parts) parts ⟨n.size, n.size + 1⟩
      [((token, .optional), n.size)] fun final =>
        Under final token first greedy .optional parts ⟨n.size, n.size + 1⟩
          [((token, .optional), n.size)] := by
  have hblock := blocked_choice h rule token .optional
  have hsize : (n.optional rule greedy token parts).size = n.size + 2 := size_optional ..
  have hne : ∀ id ≠ n.size, (n.optional rule greedy token parts).ways? id =
      (n.choice rule token .optional parts).ways? id :=
    fun id hid => n.ways?_optional_ne rule token greedy hid
  refine ⟨by omega, fun id hid hnot => ?_, Or.inr (Nat.le_succ _), ?_,
    n.record_optional rule greedy token parts, fun htidy => htidy.optional h rule greedy token,
    fun final hfinal => .optional ?_ fun p hp => ?_⟩
  · rw [hne id (by omega), hblock.before id hid hnot]
  · rw [hne _ (by dsimp only; omega), hblock.finish]
  · rw [hfinal _ (by omega) (Or.inr (Nat.le_refl _)) (by dsimp only; omega),
      ways?_optional_start h]
  · have hlt := h.right_lt p hp
    rw [hfinal _ (by omega) (Or.inl (List.mem_map_of_mem hp)) (by dsimp only; omega),
      hne _ (by omega), hblock.rights p hp]

theorem combines_star (h : n.Loose parts) (scope : Scope) (greedy : Bool) (token first : Nat) :
    n.Combines (n.star scope greedy token first parts) parts ⟨n.size + 2, n.size + 3⟩
      (among token .starBlock parts.length n.size ++ [((first, .starLoopEntry), n.size + 2)])
      fun final =>
        Under final token first greedy .closure parts ⟨n.size + 2, n.size + 3⟩
          (among token .starBlock parts.length n.size ++
            [((first, .starLoopEntry), n.size + 2)]) := by
  have hstar := starred_star scope greedy token first h
  have hsize := hstar.size
  refine ⟨by omega, hstar.before, Or.inr (by dsimp only; omega), hstar.finish,
    n.record_star scope greedy token first parts,
    fun htidy => htidy.star h scope greedy token first, fun final hfinal =>
      @Under.star _ _ _ _ _ _ _ (n.size + 1) (n.size + 4) ?_ (fun p hp => ?_) ?_ ?_ ?_⟩
  · rw [hfinal _ (by omega) (Or.inr (by omega)) (by dsimp only; omega), hstar.start]
  · have hlt := h.right_lt p hp
    rw [hfinal _ (by omega) (Or.inl (List.mem_map_of_mem hp)) (by dsimp only; omega),
      hstar.rights p hp]
  · rw [hfinal _ (by omega) (Or.inr (by omega)) (by dsimp only; omega), hstar.blockEnd]
  · rw [hfinal _ (by omega) (Or.inr (by omega)) (by dsimp only; omega), hstar.back]
  · rw [hfinal _ (by dsimp only; omega) (Or.inr (by dsimp only; omega)) (by dsimp only; omega),
      hstar.entry]

theorem combines_plus (h : n.Loose parts) (scope : Scope) (greedy : Bool) (token first : Nat) :
    n.Combines (n.plus scope greedy token first parts) parts ⟨n.size, n.size + 3⟩
      (among token .plusBlock parts.length n.size ++ [((first, .plusLoopBack), n.size + 2)])
      fun final =>
        Under final token first greedy .positiveClosure parts ⟨n.size, n.size + 3⟩
          (among token .plusBlock parts.length n.size ++
            [((first, .plusLoopBack), n.size + 2)]) := by
  have hplus := plussed_plus scope greedy token first h
  have hsize := hplus.size
  refine ⟨by omega, hplus.before, Or.inr (by dsimp only; omega), hplus.finish,
    n.record_plus scope greedy token first parts,
    fun htidy => htidy.plus h scope greedy token first, fun final hfinal =>
      @Under.plus _ _ _ _ _ _ (n.size + 1) _ ?_ (fun p hp => ?_) ?_ ?_⟩
  · rw [hfinal _ (by dsimp only; omega) (Or.inr (by dsimp only; omega)) (by dsimp only; omega),
      hplus.start]
  · have hlt := h.right_lt p hp
    rw [hfinal _ (by omega) (Or.inl (List.mem_map_of_mem hp)) (by dsimp only; omega),
      hplus.rights p hp]
  · rw [hfinal _ (by omega) (Or.inr (by omega)) (by dsimp only; omega), hplus.blockEnd]
  · rw [hfinal _ (by omega) (Or.inr (by omega)) (by dsimp only; omega), hplus.back]

/-- A chain joins parts, if nothing happens to the ends of those inside. -/
theorem joined_chain {final : Network} {part last : Handle} {rest : List Handle}
    (h : n.Loose (part :: rest)) (hlast : (part :: rest).getLast? = some last)
    (hfinal : ∀ id ∈ (part :: rest).dropLast.map (·.right),
      final.ways? id = (n.chain (part :: rest)).ways? id) :
    Joined final (part :: rest) ⟨part.left, last.right⟩ := by
  induction rest generalizing n part with
  | nil =>
      obtain rfl : part = last := Option.some.inj hlast
      exact .last part
  | cons next rest ih =>
      obtain ⟨hpart, hrest⟩ := List.forall_mem_cons.mp h.ends
      obtain ⟨hnew, hnodup⟩ := List.nodup_cons.mp h.nodup
      have hlink := n.ways?_link_first next.left hpart
      rw [List.getLast?_cons_cons] at hlast
      rw [List.dropLast_cons_cons, List.map_cons, List.forall_mem_cons] at hfinal
      refine @Joined.cons _ _ next ⟨next.left, last.right⟩ _ ?_ (ih (h.link next.left) hlast hfinal.2)
      refine (hfinal.1.trans (ways?_chain (n.link part.right next.left) fun hin => hnew ?_)).trans
        hlink
      exact List.map_subset _ (List.dropLast_subset _) hin

theorem combines_sequence {part last : Handle} {rest : List Handle}
    (h : n.Loose (part :: rest)) (hlast : (part :: rest).getLast? = some last) :
    n.Combines (n.chain (part :: rest)) (part :: rest) ⟨part.left, last.right⟩ [] fun final =>
      Joined final (part :: rest) ⟨part.left, last.right⟩ := by
  have hsize : (n.chain (part :: rest)).size = n.size := size_chain ..
  have hmem : last ∈ part :: rest := List.mem_of_getLast? hlast
  have hinner := List.map_subset (·.right) (List.dropLast_subset (part :: rest))
  -- the end of the last part is none of those inside
  have hnot : last.right ∉ (part :: rest).dropLast.map (·.right) := by
    have hnodup := h.nodup
    rw [← List.dropLast_append_getLast? last hlast, List.map_append, List.nodup_append] at hnodup
    exact fun hin => hnodup.2.2 _ hin _ (List.mem_singleton.mpr rfl) rfl
  refine ⟨by omega, fun id _ hid => n.ways?_chain fun hin => hid (hinner hin),
    Or.inl (List.mem_map.mpr ⟨last, hmem, rfl⟩), (n.ways?_chain hnot).trans (h.ends last hmem),
    n.record_chain _, fun htidy => htidy.chain h, fun final hfinal => joined_chain h hlast fun id hid => ?_⟩
  obtain ⟨p, hp, rfl⟩ := List.mem_map.mp (hinner hid)
  exact hfinal _ (by rw [hsize]; exact h.right_lt p hp) (Or.inl (hinner hid))
    fun heq => hnot (by rw [← heq]; exact hid)

end Constructs

/-! ## Elements -/

section Elements

variable {scope : Scope}

theorem Leaf.congr {n n' : Network} {target : Nat} {e : Element} {t : Transition}
    (h : Leaf n scope target e t) (hstarts : n'.ruleStarts = n.ruleStarts) :
    Leaf n' scope target e t := by
  cases h with
  | reads h => exact .reads h
  | call hcalls hcallee hstart => exact .call hcalls hcallee (by rw [hstarts]; exact hstart)
  | missing hcalls hcallee => exact .missing hcalls hcallee
  | action code index => exact .action code index
  | predicate index h => exact .predicate index h
  | precedence h => exact .precedence h
  | command name arg extent => exact .command name arg extent
  | epsilon extent => exact .epsilon extent

theorem call?_of_reader? {target : Nat} {e : Element} {t : Transition}
    (h : reader? scope target e = some t) : t.call? = none := by
  cases e <;> simp only [reader?, reduceCtorEq, Option.ite_none_left_eq_some, Option.some.injEq] at h
  case tokenRef | quotation => exact h.2 ▸ rfl
  case wildcard =>
      subst h
      split <;> rfl
  all_goals exact h ▸ rfl

/-- A call goes on at the state that the element leads to. -/
theorem Leaf.call? {n : Network} {target : Nat} {e : Element} {t : Transition}
    (h : Leaf n scope target e t) : ∀ call ∈ t.call?, call.2 = target := by
  cases h with
  | reads h => exact fun call hcall => absurd ((call?_of_reader? h).symm.trans hcall) nofun
  | call =>
      rintro call hcall
      obtain rfl := Option.some.inj hcall
      rfl
  | _ => exact nofun

def PutsElement (scope : Scope) (b : Builder) (e : Element) : Prop :=
  ∃ made, b.network.Puts ((element scope e).run b).2.network [((element scope e).run b).1] made
    fun final => Placed final scope e ((element scope e).run b).1 made

def PutsAlts (scope : Scope) (b : Builder) (alts : List Alt) : Prop :=
  ∃ made, b.network.Puts ((altParts scope alts).run b).2.network ((altParts scope alts).run b).1
    made fun final => PlacedAlts final scope alts ((altParts scope alts).run b).1 made

theorem puts_single (b : Builder) {e : Element} {make : Nat → Transition}
    (hleaf : Leaf b.network scope (b.network.size + 1) e (make (b.network.size + 1))) :
    b.network.Puts ((Build.single scope make).run b).2.network
      [((Build.single scope make).run b).1] []
      fun final => Placed final scope e ((Build.single scope make).run b).1 [] := by
  rw [run_single]
  exact (combines_single b.network scope.rule hleaf.call?).puts.mono fun final hstarts hways =>
    .leaf (hleaf.congr hstarts) hways

theorem puts_call (b : Builder) (hcalls : CallsKnown scope b.network) {e : Element}
    {name : String} {precedence : Int} (he : Dialect.calls? scope.kind e = some (name, precedence)) :
    b.network.Puts ((Build.call scope name precedence).run b).2.network
      [((Build.call scope name precedence).run b).1] []
      fun final => Placed final scope e ((Build.call scope name precedence).run b).1 [] := by
  unfold Build.call
  split
  · next hnone => exact puts_single b (.missing he hnone)
  · next callee hcallee =>
    obtain ⟨hname, hkind⟩ := Option.filter_eq_some_iff.mp hcallee
    obtain ⟨start, hstart⟩ := hcalls name callee hname (beq_iff_eq.mp hkind)
    refine @puts_single scope b e (fun follow =>
      .rule ((b.network.ruleStarts[callee.index]?).getD 0) callee.index precedence follow) ?_
    refine .call he hcallee ?_
    rw [hstart]
    rfl

/-- One character more is read behind a part. -/
theorem combines_character {n : Network} {left previous : Nat}
    (h : n.Loose [⟨left, previous⟩]) (rule : Nat) (c : Char) :
    n.Combines
      ((n.addState .basic rule).addTransition previous (.atom n.size (Symbol.ofChar c)))
      [⟨left, previous⟩] ⟨left, n.size⟩ [] fun final =>
        final.ways? previous = some (false, [.atom n.size (Symbol.ofChar c)]) := by
  have hprevious := h.ends _ (List.mem_singleton.mpr rfl)
  have hlt := h.right_lt _ (List.mem_singleton.mpr rfl)
  dsimp only at hprevious hlt
  have hways := ways?_addTransition_self (n.addState .basic rule) (.atom n.size (Symbol.ofChar c))
    ((n.ways?_addState_lt .basic rule hlt).trans hprevious)
  refine ⟨by rw [size_addTransition, size_addState]; omega, fun id hid hnot => ?_,
    Or.inr (Nat.le_refl _), ?_, rfl, fun htidy => ?_, fun final hfinal => ?_⟩
  · unfold addTransition
    rw [ways?_modifyState_ne _ _ fun heq => hnot (List.mem_singleton.mpr heq.symm),
      ways?_addState_lt _ _ _ hid]
  · unfold addTransition
    rw [ways?_modifyState_ne _ _ (Nat.ne_of_lt hlt), ways?_addState_new _ (by decide) _ rfl]
  · exact (htidy.addState (by decide) rule).addTransition
      ((n.ways?_addState_lt .basic rule hlt).trans hprevious) rfl
  · rw [hfinal previous (by rw [size_addTransition, size_addState]; omega)
      (Or.inl (List.mem_singleton.mpr rfl)) (Nat.ne_of_lt hlt)]
    exact hways

theorem puts_characters (cs : List Char) {n : Network} {b : Builder} {left previous : Nat}
    {placed : Network → Prop} (h : n.Puts b.network [⟨left, previous⟩] [] placed) :
    n.Puts ((Build.characters scope previous cs).run b).2.network
      [⟨left, ((Build.characters scope previous cs).run b).1⟩] [] fun final =>
        placed final ∧ Spelt final previous cs ((Build.characters scope previous cs).run b).1 := by
  induction cs generalizing b previous placed with
  | nil => exact h.mono fun final _ hplaced => ⟨hplaced, .nil previous⟩
  | cons c cs ih =>
      unfold Build.characters
      simp only [run_bind, run_state, Build.transition, run_update, network_withNetwork,
        withNetwork_withNetwork]
      have hnext := h.combine (combines_character h.loose scope.rule c)
      exact (@ih (b.withNetwork _) b.network.size _ hnext).mono fun final _ hplaced =>
        ⟨hplaced.1.1, .cons hplaced.1.2 hplaced.2⟩

theorem puts_word (b : Builder) (hkind : scope.kind = .lexer) (literal : Quotation) :
    b.network.Puts ((Build.word scope literal.value).run b).2.network
      [((Build.word scope literal.value).run b).1] [] fun final =>
        Placed final scope (.quotation literal) ((Build.word scope literal.value).run b).1 [] := by
  unfold Build.word
  simp only [run_bind, run_state]
  split
  · next hnil =>
    change b.network.Puts ((Build.nothing scope).run b).2.network
      [((Build.nothing scope).run b).1] [] fun final =>
        Placed final scope (.quotation literal) ((Build.nothing scope).run b).1 []
    unfold Build.nothing
    rw [run_single]
    exact (combines_single (t := .epsilon (b.network.size + 1)) b.network scope.rule
      nofun).puts.mono fun final _ hways => .noWord hkind hnil hways
  · next hcons =>
    have hstart : b.network.Puts (b.network.addState .basic scope.rule)
        [⟨b.network.size, b.network.size⟩] [] fun _ => True := by
      refine ⟨by rw [size_addState]; omega, fun id hid => ways?_addState_lt _ _ _ hid, ?_, ⟨?_, ?_⟩,
        rfl, fun htidy => htidy.addState (by decide) scope.rule, fun _ _ => trivial⟩
      · exact List.forall_mem_singleton.mpr (Nat.le_refl _)
      · exact List.forall_mem_singleton.mpr (ways?_addState_new _ (by decide) _ rfl)
      · exact List.nodup_singleton _
    exact (@puts_characters scope literal.value.toList _
      (b.withNetwork (b.network.addState .basic scope.rule)) _ _ _ hstart).mono
        fun final _ hplaced => .word hkind hcons hplaced.2

variable (scope) in
theorem puts_choice {n : Network} {b : Builder} {parts : List Handle} {made : List Made}
    {placed : Network → Prop} (h : n.Puts b.network parts made placed) (token : Nat)
    (site : DecisionSite) :
    ∃ made', n.Puts ((Build.choice scope token site parts).run b).2.network
      [((Build.choice scope token site parts).run b).1] (made ++ made') fun final =>
        placed final ∧
          Chosen final token site parts ((Build.choice scope token site parts).run b).1 made' := by
  by_cases hone : parts.length = 1
  · obtain ⟨part, rfl⟩ := List.length_eq_one_iff.mp hone
    exact ⟨[], h.combine (combines_alone part token site h.loose)⟩
  · rw [run_choice scope b hone]
    exact ⟨_, h.combine (combines_choice h.loose hone scope.rule token site)⟩

variable (scope) in
theorem puts_suffixed {n : Network} {b : Builder} {parts : List Handle} {made : List Made}
    {placed : Network → Prop} (h : n.Puts b.network parts made placed) (suffix : Suffix)
    (greedy : Bool) (token first : Nat) :
    ∃ made', n.Puts ((Build.suffixed scope suffix greedy token first parts).run b).2.network
      [((Build.suffixed scope suffix greedy token first parts).run b).1] (made ++ made')
      fun final => placed final ∧ Under final token first greedy suffix parts
        ((Build.suffixed scope suffix greedy token first parts).run b).1 made' := by
  cases suffix with
  | optional =>
      unfold Build.suffixed
      rw [run_optional]
      exact ⟨_, h.combine (combines_optional h.loose scope.rule greedy token first)⟩
  | closure =>
      unfold Build.suffixed
      rw [run_star]
      exact ⟨_, h.combine (combines_star h.loose scope greedy token first)⟩
  | positiveClosure =>
      unfold Build.suffixed
      rw [run_plus]
      exact ⟨_, h.combine (combines_plus h.loose scope greedy token first)⟩

theorem puts_sequence {n : Network} {b : Builder} {parts : List Handle} {made : List Made}
    {placed : Network → Prop} (h : n.Puts b.network parts made placed) :
    n.Puts ((Build.sequence scope parts).run b).2.network
      [((Build.sequence scope parts).run b).1] made fun final =>
        placed final ∧ Joined final parts ((Build.sequence scope parts).run b).1 := by
  rw [← List.append_nil made]
  cases parts with
  | nil =>
      rw [run_sequence_nil]
      exact (h.combine (combines_single (t := .epsilon (b.network.size + 1)) b.network scope.rule
        nofun)).mono fun final _ hplaced => ⟨hplaced.1, .nothing hplaced.2⟩
  | cons part rest =>
      have hlast := List.getLast?_eq_some_getLast (List.cons_ne_nil part rest)
      rw [run_sequence scope b (List.head?_cons ..) hlast]
      exact h.combine (combines_sequence h.loose hlast)

theorem CallsKnown.puts {b b' : Builder} (h : CallsKnown scope b.network) {parts : List Handle}
    {made : List Made} {placed : Network → Prop}
    (hputs : b.network.Puts b'.network parts made placed) : CallsKnown scope b'.network := by
  intro name callee hname hkind
  rw [starts_of_record hputs.record]
  exact h name callee hname hkind

/-- A suffix asks for the alternatives of a block apart from the choice between them. -/
structure PutsBoth (scope : Scope) (b : Builder) (e : Element) : Prop where
  part : PutsElement scope b e
  alts : ∀ alts options extent, e = .block alts options extent → PutsAlts scope b alts

theorem PutsBoth.leaf {b : Builder} {e : Element}
    (h : b.network.Puts ((element scope e).run b).2.network [((element scope e).run b).1] []
      fun final => Placed final scope e ((element scope e).run b).1 [])
    (hblock : ∀ alts options extent, e ≠ .block alts options extent) : PutsBoth scope b e :=
  ⟨⟨[], h⟩, fun alts options extent he => absurd he (hblock alts options extent)⟩

theorem puts_element_suffixed {b : Builder} {inner : Element} (h : PutsBoth scope b inner)
    (suffix : Suffix) (greedy : Bool) (extent : Extent) :
    PutsElement scope b (.suffixed suffix greedy inner extent) := by
  by_cases hblock : ∃ alts options x, inner = .block alts options x
  · obtain ⟨alts, options, x, rfl⟩ := hblock
    obtain ⟨made, halts⟩ := h.alts alts options x rfl
    obtain ⟨made', hwhole⟩ := puts_suffixed scope halts suffix greedy x.start extent.start
    refine ⟨made ++ made', ?_⟩
    rw [element, run_bind]
    exact hwhole.mono fun final _ hplaced => .blockUnder hplaced.1 hplaced.2
  · have hno : ∀ alts options x, inner = .block alts options x → False :=
      fun alts options x hx => hblock ⟨alts, options, x, hx⟩
    obtain ⟨made, hpart⟩ := h.part
    obtain ⟨made', hwhole⟩ :=
      puts_suffixed scope hpart suffix greedy inner.extent.start extent.start
    refine ⟨made ++ made', ?_⟩
    rw [element, run_bind]
    · exact hwhole.mono fun final _ hplaced => .under hno hplaced.1 hplaced.2
    · exact hno

mutual
/-- Whatever stands in a rule is put in its place. -/
theorem puts_element : ∀ (e : Element) {b : Builder}, CallsKnown scope b.network →
    PutsBoth scope b e
  | .block alts _ extent, b, hcalls => by
      have halts := puts_altParts alts hcalls
      refine ⟨?_, fun _ _ _ heq => by cases heq; exact halts⟩
      obtain ⟨made, halts⟩ := halts
      obtain ⟨made', hwhole⟩ := puts_choice scope halts extent.start .block
      refine ⟨made ++ made', ?_⟩
      rw [element, run_bind]
      exact hwhole.mono fun final _ hplaced => .block hplaced.1 hplaced.2
  | .suffixed suffix greedy inner extent, b, hcalls =>
      ⟨puts_element_suffixed (puts_element inner hcalls) suffix greedy extent, nofun⟩
  | .labeled _ _ _ inner _, b, hcalls => by
      obtain ⟨made, hinner⟩ := (puts_element inner hcalls).part
      refine ⟨⟨made, ?_⟩, nofun⟩
      rw [element]
      exact hinner.mono fun final _ hplaced => .labeled hplaced
  | .ruleRef r, b, hcalls => by
      refine .leaf ?_ nofun
      rw [element]
      exact puts_call b hcalls rfl
  | .tokenRef name options extent, b, hcalls => by
      refine .leaf ?_ nofun
      rw [element]
      cases hkind : scope.kind with
      | lexer => exact puts_call b hcalls (by rw [Dialect.calls?, hkind, if_pos rfl])
      | parser => exact puts_single b (.reads (by rw [reader?, hkind]; rfl))
  | .quotation literal, b, hcalls => by
      refine .leaf ?_ nofun
      rw [element]
      cases hkind : scope.kind with
      | lexer => exact puts_word b hkind literal
      | parser => exact puts_single b (.reads (by rw [reader?, hkind]; rfl))
  | .range first last _, b, _ => by
      refine .leaf ?_ nofun
      rw [element]
      exact puts_single b (.reads rfl)
  | .wildcard _ _, b, _ => by
      refine .leaf ?_ nofun
      rw [element]
      refine puts_single b (.reads ?_)
      cases hkind : scope.kind <;> rw [reader?, hkind] <;> rfl
  | .set elements _, b, _ => by
      refine .leaf ?_ nofun
      rw [element]
      exact puts_single b (.reads rfl)
  | .not operand _, b, _ => by
      refine .leaf ?_ nofun
      rw [element]
      exact puts_single b (.reads rfl)
  | .action code, b, _ => by
      refine .leaf ?_ nofun
      rw [element]
      exact @puts_single scope { b with actions := b.actions + 1 } (.action code)
        (fun target => .action target scope.rule b.actions) (.action code b.actions)
  | .predicate code, b, _ => by
      refine .leaf ?_ nofun
      rw [element]
      cases hprecedence : precedenceIn? code.options with
      | some demanded => exact puts_single b (.precedence hprecedence)
      | none =>
          exact @puts_single scope { b with predicates := b.predicates + 1 } (.predicate code)
            (fun target => .predicate target scope.rule b.predicates)
            (.predicate b.predicates hprecedence)
  | .command name arg extent, b, _ => by
      refine .leaf ?_ nofun
      rw [element]
      exact puts_single b (.command name arg extent)
  | .epsilon extent, b, _ => by
      refine .leaf ?_ nofun
      rw [element]
      exact puts_single b (.epsilon extent)

theorem puts_elementParts : ∀ (es : List Element) {b : Builder}, CallsKnown scope b.network →
    ∃ made, b.network.Puts ((elementParts scope es).run b).2.network
      ((elementParts scope es).run b).1 made fun final =>
        PlacedRow final scope es ((elementParts scope es).run b).1 made
  | [], b, _ => by
      refine ⟨[], ?_⟩
      rw [elementParts]
      exact Puts.nil _ fun _ => .nil
  | e :: es, b, hcalls => by
      obtain ⟨made, hpart⟩ := (puts_element e hcalls).part
      obtain ⟨made', hparts⟩ := puts_elementParts es (hcalls.puts hpart)
      refine ⟨made ++ made', ?_⟩
      rw [elementParts, run_bind, run_bind, run_pure]
      exact (hpart.cons hparts).mono fun final _ hplaced => .cons hplaced.1 hplaced.2

theorem puts_alternative : ∀ (alt : Alt) {b : Builder}, CallsKnown scope b.network →
    ∃ (row : List Handle) (made : List Made),
      b.network.Puts ((alternative scope alt).run b).2.network
        [((alternative scope alt).run b).1] made fun final =>
          PlacedRow final scope alt.elements row made ∧
            Joined final row ((alternative scope alt).run b).1
  | ⟨elements, _, _, _, _⟩, b, hcalls => by
      obtain ⟨made, hrow⟩ := puts_elementParts elements hcalls
      refine ⟨((elementParts scope elements).run b).1, made, ?_⟩
      rw [alternative, run_bind]
      exact puts_sequence hrow

theorem puts_altParts : ∀ (alts : List Alt) {b : Builder}, CallsKnown scope b.network →
    PutsAlts scope b alts
  | [], b, _ => by
      refine ⟨[], ?_⟩
      rw [altParts]
      exact Puts.nil _ fun _ => .nil
  | a :: as, b, hcalls => by
      obtain ⟨row, made, hpart⟩ := puts_alternative a hcalls
      obtain ⟨made', hparts⟩ := puts_altParts as (hcalls.puts hpart)
      refine ⟨made ++ made', ?_⟩
      rw [altParts, run_bind, run_bind, run_pure]
      exact (hpart.cons hparts).mono fun final _ hplaced =>
        .cons hplaced.1.1 hplaced.1.2 hplaced.2
end

end Elements

end Network

end GrammarCompiler
