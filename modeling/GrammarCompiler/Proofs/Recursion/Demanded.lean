import GrammarCompiler.Proofs.Grammar.Nullable
import GrammarCompiler.Proofs.Recursion.Eliminated

/-!
# The precedences that references demand

Once left recursion has been eliminated, every reference to a rule that was replaced demands one
precedence, and no other reference demands any (`Grammar.eliminate_demands`). The last operand of an
operator demands what its alternative is worth, and all other references to replaced rules demand 0.

The demand is made on the last reference of an alternative in the order in which elements are listed
(`Alt.ruleRefs_withPrecedence`). That this is the last operand, and no reference in a block or behind it,
is due to the shape of the alternative (`Alt.exists_operand`).

Not all references of the new rule were there before. A lexer command that comes to stand at the front of
a text loses its arrow and is read back as references, which demand 0 or nothing (`RuleDef.strayNames`).
-/

namespace GrammarCompiler

/-! ## References and what they demand -/

/-- The reference that an element is. -/
def Element.ruleRef? : Element → Option RuleRef
  | .ruleRef r => some r
  | _ => none

def ruleRefs (nodes : List Element) : List RuleRef :=
  nodes.filterMap Element.ruleRef?

def Options.values (options : Options) (key : String) : List String :=
  (options.entries.filter (·.1 == key)).map (·.2)

/-- What a reference is to, the token it was copied from, and the precedences it demands. -/
structure RefMark where
  name : String
  origin : Option String
  demands : List String
deriving Repr, DecidableEq

/-- What can be told of a reference. -/
def RuleRef.mark (ref : RuleRef) : RefMark :=
  ⟨ref.name, ref.options.get? tokenIndexOption, ref.options.values precedenceOption⟩

/-- What can be told of the reference that an element is. -/
def Element.refMark? (e : Element) : Option RefMark :=
  e.ruleRef?.map RuleRef.mark

/-- A reference that demands the precedence 0 if it demands none and is to a rule of the list. -/
def RefMark.demandAny (names : List String) (mark : RefMark) : RefMark :=
  if names.contains mark.name && mark.demands.isEmpty then { mark with demands := ["0"] } else mark

/-! ## Setting an option -/

namespace Options

theorem get?_eq (options : Options) (key : String) :
    options.get? key = (options.values key).head? := by
  unfold get? values
  induction options.entries with
  | nil => rfl
  | cons entry entries ih =>
      obtain ⟨k, v⟩ := entry
      rw [List.lookup_cons, List.filter_cons]
      by_cases hk : k = key
      · subst hk
        simp
      · have hback : (key == k) = false := beq_eq_false_iff_ne.mpr (Ne.symm hk)
        have hforth : (k == key) = false := beq_eq_false_iff_ne.mpr hk
        simp only [hback, hforth]
        exact ih

theorem isNone_get?_eq (options : Options) (key : String) :
    (options.get? key).isNone = (options.values key).isEmpty := by
  rw [get?_eq]
  cases options.values key <;> rfl

theorem values_set_of_nil {options : Options} {key : String} (h : options.values key = [])
    (value : String) : (options.set key value).values key = [value] := by
  unfold set values at *
  generalize options.entries = entries at h ⊢
  induction entries with
  | nil => simp [setEntry]
  | cons entry entries ih =>
      obtain ⟨k, v⟩ := entry
      rw [List.filter_cons] at h
      by_cases hk : k = key
      · simp [hk] at h
      · have hforth : (k == key) = false := beq_eq_false_iff_ne.mpr hk
        rw [hforth, if_neg Bool.false_ne_true] at h
        simp only [setEntry, if_neg hk, List.filter_cons, hforth]
        exact ih h

theorem get?_set_of_ne {key other : String} (h : key ≠ other) (options : Options) (value : String) :
    (options.set key value).get? other = options.get? other := by
  unfold set get?
  generalize options.entries = entries
  have hkey : (other == key) = false := beq_eq_false_iff_ne.mpr (Ne.symm h)
  induction entries with
  | nil => simp [setEntry, List.lookup_cons, hkey]
  | cons entry entries ih =>
      obtain ⟨k, v⟩ := entry
      by_cases hk : k = key
      · simp [setEntry, hk, List.lookup_cons, hkey]
      · simp only [setEntry, if_neg hk, List.lookup_cons]
        rw [ih]

end Options

/-- Letting a reference demand a precedence changes nothing else that is told of it. -/
theorem RuleRef.mark_set {ref : RuleRef} (h : ref.options.values precedenceOption = []) (value : String) :
    RuleRef.mark { ref with options := ref.options.set precedenceOption value } =
      { ref.mark with demands := [value] } := by
  unfold mark
  rw [Options.values_set_of_nil h, Options.get?_set_of_ne (by decide)]

/-- The change that lets references to rules of a list demand the precedence 0. -/
def demandingAny (names : List String) (_ : Unit) (element : Element) : Unit × Options :=
  match element with
  | .ruleRef r =>
    ((), if names.contains r.name && (r.options.get? precedenceOption).isNone then
      r.options.set precedenceOption "0" else r.options)
  | other => ((), other.ownOptions)

theorem demandAny_eq (names : List String) (rule : RuleDef) :
    Grammar.demandAny names rule = (rule.mapOptions (demandingAny names) ()).2 := rfl

/-- What a reference tells once those to rules of a list demand a precedence. -/
theorem refMark?_demandingAny (names : List String) (e : Element) (s : Unit) :
    (e.mapOptions (demandingAny names) s).2.refMark? = e.refMark?.map (RefMark.demandAny names) := by
  cases e with
  | ruleRef ref =>
      refine congrArg some ?_
      show RuleRef.mark { ref with options := if names.contains ref.name &&
        (ref.options.get? precedenceOption).isNone then ref.options.set precedenceOption "0"
          else ref.options } = RefMark.demandAny names ref.mark
      unfold RefMark.demandAny
      rw [Options.isNone_get?_eq]
      by_cases hnames : (names.contains ref.name &&
        (ref.options.values precedenceOption).isEmpty) = true
      · rw [if_pos hnames]
        rw [RuleRef.mark_set (List.isEmpty_iff.mp ((Bool.and_eq_true _ _).mp hnames).2)]
        exact (if_pos hnames).symm
      · rw [if_neg hnames]
        exact (if_neg hnames).symm
  | _ => rfl

theorem refMarks_demandAny (names : List String) (rule : RuleDef) :
    (Grammar.demandAny names rule).nodes.filterMap Element.refMark? =
      (rule.nodes.filterMap Element.refMark?).map (RefMark.demandAny names) := by
  rw [List.map_filterMap]
  exact Alt.filterMap_mapListOptions (refMark?_demandingAny names) rule.alts ()

theorem views_demandAny (names : List String) (alts : List Alt) :
    (Alt.mapListOptions (demandingAny names) () alts).2.map (·.views Element.refMark?) =
      (alts.map (·.views Element.refMark?)).map (List.map (RefMark.demandAny names)) := by
  rw [Alt.mapListOptions_eq_map, List.map_map, List.map_map]
  refine List.map_congr_left fun alt _ => ?_
  unfold Function.comp Alt.views
  rw [List.map_filterMap]
  exact Alt.filterMap_mapOptions (refMark?_demandingAny names) alt ()

/-! ## The last of some references -/

theorem ruleRefs_append (nodes others : List Element) :
    ruleRefs (nodes ++ others) = ruleRefs nodes ++ ruleRefs others :=
  List.filterMap_append

/-- A reference with its number, as it is once the last of some references demands a precedence. -/
def marked (count : Nat) (name : String) (precedence : Nat) (ref : RuleRef × Nat) : RuleRef :=
  if ref.2 + 1 = count && ref.1.name == name then
    { ref.1 with options := ref.1.options.set precedenceOption (toString precedence) }
  else ref.1

section Marking

variable (count : Nat) (name : String) (precedence : Nat)

/-- Whether the references of some nodes, the first of which has a number, are marked one after another
in others. -/
def Marks (nodes : List Element) (s : Nat) (result : Nat × List Element) : Prop :=
  result.1 = s + (ruleRefs nodes).length ∧
    ruleRefs result.2 = ((ruleRefs nodes).zipIdx s).map (marked count name precedence)

variable {count name precedence}

theorem Marks.append {nodes others marked' marked'' : List Element} {s t u : Nat}
    (h : Marks count name precedence nodes s (t, marked'))
    (h' : Marks count name precedence others t (u, marked'')) :
    Marks count name precedence (nodes ++ others) s (u, marked' ++ marked'') := by
  obtain ⟨rfl, hfirst⟩ := h
  obtain ⟨rfl, hsecond⟩ := h'
  refine ⟨?_, ?_⟩
  · rw [ruleRefs_append, List.length_append, Nat.add_assoc]
  · dsimp only at hfirst hsecond ⊢
    rw [ruleRefs_append, ruleRefs_append, hfirst, hsecond, List.zipIdx_append, List.map_append]

theorem Marks.cons {nodes marked' : List Element} {s t : Nat} {e e' : Element}
    (he : e.ruleRef? = none) (he' : e'.ruleRef? = none)
    (h : Marks count name precedence nodes s (t, marked')) :
    Marks count name precedence (e :: nodes) s (t, e' :: marked') := by
  have hskip : ∀ {e : Element} (nodes : List Element), e.ruleRef? = none →
      ruleRefs (e :: nodes) = ruleRefs nodes := fun _ h => List.filterMap_cons_none h
  unfold Marks at h ⊢
  dsimp only at h ⊢
  rwa [hskip _ he, hskip _ he']

theorem Marks.nil (s : Nat) : Marks count name precedence [] s (s, []) :=
  ⟨rfl, rfl⟩

variable (count name precedence)

mutual
theorem Element.marks_demanding : ∀ (e : Element) (s : Nat), Marks count name precedence e.nodes s
    ((e.mapOptions (demanding count name precedence) s).1,
      (e.mapOptions (demanding count name precedence) s).2.nodes)
  | .block alts o extent, s => (Alt.marks_demandingList alts s).cons rfl rfl
  | .not operand extent, s => (Element.marks_demanding operand s).cons rfl rfl
  | .set elements extent, s => (Element.marks_demandingList elements s).cons rfl rfl
  | .suffixed suffix greedy inner extent, s => (Element.marks_demanding inner s).cons rfl rfl
  | .labeled isList label token inner extent, s => (Element.marks_demanding inner s).cons rfl rfl
  | .ruleRef ref, s => by
      refine ⟨rfl, congrArg (fun ref => [ref]) ?_⟩
      show RuleRef.mk ref.name ref.args (if _ then _ else ref.options) ref.extent = if _ then _ else ref
      split <;> rfl
  | .tokenRef .., s | .quotation _, s | .range .., s | .wildcard .., s | .action _, s
  | .predicate _, s | .command .., s | .epsilon _, s => (Marks.nil s).cons rfl rfl

theorem Element.marks_demandingList : ∀ (es : List Element) (s : Nat),
    Marks count name precedence (Element.listNodes es) s
      ((Element.mapListOptions (demanding count name precedence) s es).1,
        Element.listNodes (Element.mapListOptions (demanding count name precedence) s es).2)
  | [], s => .nil s
  | e :: es, s => (Element.marks_demanding e s).append (Element.marks_demandingList es _)

theorem Alt.marks_demandingList : ∀ (as : List Alt) (s : Nat),
    Marks count name precedence (Alt.listNodes as) s
      ((Alt.mapListOptions (demanding count name precedence) s as).1,
        Alt.listNodes (Alt.mapListOptions (demanding count name precedence) s as).2)
  | [], s => .nil s
  | ⟨elements, _, _, _, _⟩ :: as, s =>
      (Element.marks_demandingList elements s).append (Alt.marks_demandingList as _)
end

end Marking

/-- If the last reference of an alternative is to a rule, it is the one that demands the precedence. -/
theorem Alt.ruleRefs_withPrecedence {alt : Alt} {name : String} {front : List RuleRef} {last : RuleRef}
    (h : ruleRefs alt.nodes = front ++ [last]) (hname : last.name = name) (precedence : Nat) :
    ruleRefs (alt.withPrecedence name precedence).nodes = front ++
      [{ last with options := last.options.set precedenceOption (toString precedence) }] := by
  have hcount : (alt.nodesOfKind .ruleRef).length = (ruleRefs alt.nodes).length := by
    unfold Alt.nodesOfKind ruleRefs
    rw [← List.countP_eq_length_filter, List.length_filterMap_eq_countP]
    refine List.countP_congr fun e _ => ?_
    cases e with
    | suffixed suffix => cases suffix <;> simp [Element.kind, Suffix.kind, Element.ruleRef?]
    | labeled isList => cases isList <;> simp [Element.kind, Element.ruleRef?]
    | _ => simp [Element.kind, Element.ruleRef?]
  have hmarks : ruleRefs (alt.withPrecedence name precedence).nodes =
      ((ruleRefs alt.nodes).zipIdx 0).map (marked (ruleRefs alt.nodes).length name precedence) := by
    obtain ⟨elements, options, label, extent, info⟩ := alt
    rw [← hcount]
    exact (Element.marks_demandingList _ name precedence elements 0).2
  rw [hmarks, h, List.zipIdx_append, List.map_append, List.length_append, List.length_singleton,
    Nat.zero_add]
  refine congrArg₂ (· ++ ·) ?_ ?_
  · conv_rhs => rw [← List.zipIdx_map_fst 0 front]
    refine List.map_congr_left fun pair hmem => ?_
    obtain ⟨ref, i⟩ := pair
    have hi : i < front.length := by
      have := List.snd_lt_of_mem_zipIdx hmem
      omega
    refine if_neg ?_
    simp only [Bool.and_eq_true, decide_eq_true_eq, not_and]
    omega
  · unfold marked
    simp [hname]

/-! ## The last operand of an alternative -/

/-- Whether an alternative ends with an operand of which a precedence is demanded. -/
def AltShape.hasLastOperand : AltShape → Bool
  | .binary | .ternary | .front => true
  | .suffix | .other => false

namespace Alt

/-- What is left behind the last element that counts does not count. -/
theorem isSilent_behind (alt : Alt) :
    ∀ e ∈ alt.elements.drop (alt.lastCounting + 1), e.isSilent = true := by
  intro e he
  have hsplit : (alt.elements.reverse.dropWhile Element.isSilent).reverse ++
      (alt.elements.reverse.takeWhile Element.isSilent).reverse = alt.elements := by
    rw [← List.reverse_append, List.takeWhile_append_dropWhile, List.reverse_reverse]
  have hlength := congrArg List.length hsplit
  rw [List.length_append, List.length_reverse, List.length_reverse] at hlength
  have hle : (alt.elements.reverse.dropWhile Element.isSilent).reverse.length ≤
      alt.lastCounting + 1 := by
    unfold lastCounting
    rw [List.length_reverse]
    omega
  have hmem := List.drop_subset_drop_left alt.elements hle he
  generalize (alt.elements.reverse.dropWhile Element.isSilent).reverse = front at hsplit hmem
  generalize hback : (alt.elements.reverse.takeWhile Element.isSilent).reverse = back at hsplit
  rw [← hsplit, List.drop_left, ← hback, List.mem_reverse] at hmem
  exact List.mem_takeWhile_imp hmem

/-- What counts last in an alternative that ends with a rule is a reference to it. -/
theorem exists_last_of_endsWith {alt : Alt} {name : String} (h : alt.endsWith name = true) :
    ∃ front last back, alt.elements = front ++ last :: back ∧ last.refersTo name = true ∧
      (∀ e ∈ back, e.isSilent = true) ∧ front.length = alt.lastCounting := by
  unfold endsWith refsTo at h
  obtain ⟨⟨last, i⟩, hlast, hi⟩ := List.mem_map.mp (List.mem_of_getLast? (beq_iff_eq.mp h))
  obtain ⟨hmem, hrefers⟩ := List.mem_filter.mp hlast
  obtain rfl : i = alt.lastCounting := hi
  have hget : alt.elements[alt.lastCounting]? = some last := List.mem_zipIdx_iff_getElem?.mp hmem
  obtain ⟨hlt, hget⟩ := List.getElem?_eq_some_iff.mp hget
  refine ⟨alt.elements.take alt.lastCounting, last, alt.elements.drop (alt.lastCounting + 1), ?_,
    hrefers, alt.isSilent_behind, ?_⟩
  · rw [← hget, ← List.drop_eq_getElem_cons, List.take_append_drop]
  · rw [List.length_take]
    omega

/-- The last operand of an alternative stands in front of elements that do not count. -/
theorem exists_operand {alt : Alt} {name : String} {num : Nat} {shape : AltShape}
    (h : alt.shape name num = .ok shape) (hoperand : shape.hasLastOperand = true) :
    ∃ front last back, alt.carried shape = front ++ last :: back ∧ last.refersTo name = true ∧
      ∀ e ∈ back, e.isSilent = true := by
  unfold Alt.shape at h
  split at h
  · cases h
  split at h
  · split at h
    · next hends =>
        obtain rfl := Except.ok.inj h
        obtain ⟨front, last, back, helements, hlast, hback, -⟩ := exists_last_of_endsWith hends
        exact ⟨front, last, back, helements, hlast, hback⟩
    · obtain rfl := Except.ok.inj h
      cases hoperand
  split at h
  · cases h
  split at h
  · cases h
  next hcounting =>
  split at h
  · obtain rfl := Except.ok.inj h
    cases hoperand
  next hends =>
  obtain ⟨front, last, back, helements, hlast, hback, hlength⟩ :=
    @exists_last_of_endsWith alt name (by simpa using hends)
  have hoperator : shape.isOperator = true := by
    split at h <;> obtain rfl := Except.ok.inj h <;> rfl
  cases front with
  | nil => exact absurd hlength.symm hcounting
  | cons first front =>
      refine ⟨front, last, back, ?_, hlast, hback⟩
      unfold carried
      rw [if_pos hoperator, helements, List.cons_append, List.tail_cons]

end Alt

/-! ## The references of one alternative -/

def LacksOptions (nodes : List Element) : Prop :=
  ∀ e ∈ nodes, e.ownOptions = .none

instance (nodes : List Element) : Decidable (LacksOptions nodes) :=
  inferInstanceAs (Decidable (∀ e ∈ nodes, _))

theorem LacksOptions.values {nodes : List Element} (h : LacksOptions nodes) {ref : RuleRef}
    (href : ref ∈ ruleRefs nodes) (key : String) : ref.options.values key = [] := by
  obtain ⟨e, he, heq⟩ := List.mem_filterMap.mp href
  cases e with
  | ruleRef r =>
      obtain rfl := Option.some.inj heq
      rw [show r.options = .none from h _ he]
      rfl
  | _ => cases heq

theorem LacksOptions.unquotedIn {nodes : List Element} (h : LacksOptions nodes) (tokens : List Token) :
    UnquotedIn nodes tokens := by
  intro e he extent hextent
  rw [h e he] at hextent
  cases hextent

/-- What the copy of a reference tells. -/
def RuleRef.copyMark (ref : RuleRef) : RefMark :=
  ⟨ref.name, some (toString ref.extent.start), ref.options.values precedenceOption⟩

theorem refMark?_copied (e : Element) : e.copied.refMark? = e.ruleRef?.map RuleRef.copyMark := by
  cases e with
  | ruleRef ref =>
      have hvalues : (Element.marks (.ruleRef ref)).filter (·.1 == precedenceOption) =
          ref.options.entries.filter (·.1 == precedenceOption) := by
        show ((tokenIndexOption, _) :: ref.options.entries.filter (·.1 != tokenIndexOption)).filter _ = _
        have hother : (tokenIndexOption == precedenceOption) = false := by decide
        rw [List.filter_cons, if_neg (by rw [hother]; exact Bool.false_ne_true), List.filter_filter]
        refine List.filter_congr fun entry _ => ?_
        by_cases hkey : entry.1 = precedenceOption
        · rw [hkey]
          decide
        · simp [hkey]
      exact congrArg (fun values => some (RefMark.mk ref.name _ (values.map Prod.snd))) hvalues
  | _ => rfl

/-! ## Lexer commands that are read as references -/

/-- What a reference tells that is a name alone. -/
def RefMark.bare (name : String) : RefMark :=
  ⟨name, none, []⟩

/-- The rules that elements come to refer to when the lexer command in front of them loses its arrow: its
name is read as a reference then, and its argument as a block with one in it. -/
def Element.strayNames : List Element → List String
  | .command name arg _ :: _ => (name :: arg.toList).filter fun name => !isTokenName name
  | _ => []

theorem Element.refMark?_named (name : String) : (Element.named name).nodes.filterMap Element.refMark? =
    ([name].filter fun name => !isTokenName name).map RefMark.bare := by
  unfold named
  cases htoken : isTokenName name with
  | true => rw [if_pos rfl, List.filter_cons_of_neg (by simp [htoken])]; rfl
  | false => rw [if_neg Bool.false_ne_true, List.filter_cons_of_pos (by simp [htoken])]; rfl

theorem Element.refMark?_argument (arg : Option String) :
    (Element.listNodes (Element.argument arg)).filterMap Element.refMark? =
      (arg.toList.filter fun name => !isTokenName name).map RefMark.bare := by
  cases arg with
  | none => rfl
  | some name =>
      show ((Element.named name).nodes ++ [] ++ [] ++ []).filterMap Element.refMark? = _
      rw [List.append_nil, List.append_nil, List.append_nil, Element.refMark?_named]
      rfl

theorem Element.refMark?_signless (es : List Element) :
    (Element.listNodes (Element.signless es)).filterMap Element.refMark? =
      (Element.strayNames es).map RefMark.bare ++ (Element.listNodes es).filterMap Element.refMark? := by
  cases es with
  | nil => rfl
  | cons e es =>
      cases e with
      | command name arg extent =>
          have hnames : Element.strayNames (.command name arg extent :: es) =
              ([name] ++ arg.toList).filter fun name => !isTokenName name := rfl
          rw [hnames, Element.signless, Element.listNodes, Element.listNodes_append, List.filterMap_append,
            List.filterMap_append, Element.refMark?_named, Element.refMark?_argument, List.filter_append,
            List.map_append, List.append_assoc]
          rfl
      | _ => rfl

theorem Element.strayNames_eq_nil {es : List Element} (h : LacksCommands es) :
    Element.strayNames es = [] := by
  cases es with
  | nil => rfl
  | cons e es =>
      have he := h e (List.mem_cons_self ..)
      cases e with
      | command => cases he
      | _ => rfl

theorem Element.strayNames_allCopied (es : List Element) :
    Element.strayNames (Element.allCopied es) = Element.strayNames es := by
  cases es with
  | nil => rfl
  | cons e es => cases e <;> rfl

theorem Element.strayNames_mapListOptions {σ : Type} (f : σ → Element → σ × Options) (s : σ)
    (es : List Element) :
    Element.strayNames (Element.mapListOptions f s es).2 = Element.strayNames es := by
  cases es with
  | nil => rfl
  | cons e es => cases e <;> rfl

/-- A last operand that demands a precedence does not change what a command is read as. -/
theorem Alt.strayNames_remainder {alt : Alt} {name : String} {num : Nat} {shape : AltShape}
    (h : alt.shape name num = .ok shape) (demand : Option Nat) :
    Element.strayNames (alt.remainder name shape demand).elements =
      Element.strayNames (alt.carried shape) := by
  rw [← Alt.elements_kept h]
  cases demand with
  | none => rfl
  | some precedence =>
      unfold Alt.remainder
      generalize alt.kept name shape = kept
      obtain ⟨elements, options, label, extent, info⟩ := kept
      exact Element.strayNames_mapListOptions _ 0 elements

namespace RuleDef

/-- The rules that the alternative with a number comes to refer to because of a lexer command. Its text
begins with the command if the operand in front of it is lost, or if the alternative has no options. -/
def strayNames (rule : RuleDef) (num : Nat) : List String :=
  match rule.alts[num - 1]? with
  | none => []
  | some alt => (alt.shape rule.name num).toOption.elim [] fun shape =>
    if alt.isCut shape then Element.strayNames (alt.carried shape) else []

/-- What the alternative with a number demands of its last operand. The alternatives are worth the less
the later they come; an operator that is grouped to the left demands one more than it is worth. -/
def lastDemand (rule : RuleDef) (num : Nat) : Option Nat :=
  match rule.alts[num - 1]? with
  | none => none
  | some alt =>
    match alt.shape rule.name num with
    | .ok .binary | .ok .ternary =>
      if alt.options.get? assocOption = some "right" then some (rule.alts.length - num + 1)
      else some (rule.alts.length - num + 2)
    | .ok .front => some (rule.alts.length - num + 1)
    | _ => none

/-- The references that go over into the new rule from the alternative with a number. -/
def carriedRefs (rule : RuleDef) (num : Nat) : List RuleRef :=
  ruleRefs (Element.listNodes (rule.carried num))

/-- What the references tell that stand in the new rule for those of the alternative with a number: a
reference to a rule of the list demands 0, unless it stands for the last operand. -/
def marksOf (rule : RuleDef) (names : List String) (num : Nat) : List RefMark :=
  let any (ref : RuleRef) : RefMark :=
    ⟨ref.name, some (toString ref.extent.start), if names.contains ref.name then ["0"] else []⟩
  match rule.lastDemand num with
  | none => (rule.carriedRefs num).map any
  | some precedence =>
    (rule.carriedRefs num).dropLast.map any ++ (rule.carriedRefs num).getLast?.toList.map fun last =>
      ⟨rule.name, some (toString last.extent.start), [toString precedence]⟩

/-- What all references tell that stand in the new rule for the alternative with a number. A name that is
read off a lexer command names no token it came from, and demands 0 if it is in the list. -/
def readMarks (rule : RuleDef) (names : List String) (num : Nat) : List RefMark :=
  ((rule.strayNames num).map fun name => ⟨name, none, if names.contains name then ["0"] else []⟩) ++
    rule.marksOf names num

theorem strayNames_eq (rule : RuleDef) (num : Nat) : rule.strayNames num = [] ∨
    rule.strayNames num = Element.strayNames (rule.carried num) := by
  unfold strayNames RuleDef.carried
  cases rule.alts[num - 1]? with
  | none => exact .inl rfl
  | some alt =>
      dsimp only
      cases alt.shape rule.name num with
      | error reason => exact .inl rfl
      | ok shape =>
          dsimp only [Except.toOption, Option.elim_some]
          split
          · exact .inr rfl
          · exact .inl rfl

/-- Without lexer commands only references that were written are told of. -/
theorem readMarks_eq {rule : RuleDef} {num : Nat} (h : LacksCommands (rule.carried num))
    (names : List String) : rule.readMarks names num = rule.marksOf names num := by
  have hnone : rule.strayNames num = [] := by
    rcases rule.strayNames_eq num with hnone | heq
    · exact hnone
    · rw [heq, Element.strayNames_eq_nil h]
  rw [readMarks, hnone]
  rfl

theorem assocOf_eq (grammar : Grammar) (alt : Alt) : (grammar.assocOf alt).1 =
    if alt.options.get? assocOption = some "right" then .right else .left := by
  unfold Grammar.assocOf
  split
  · next h => rw [h]; rfl
  · next h => rw [h]; rfl
  · next h => rw [h]; rfl
  · next value hright h => rw [h, if_neg (fun heq => hright (Option.some.inj heq))]

theorem HandsOver.lastDemand {rule : RuleDef} {num : Nat} {origin : Alt} {shape : AltShape}
    (h : rule.HandsOver num origin shape) (grammar : Grammar) : rule.lastDemand num =
      shape.demand (grammar.assocOf origin).1 (precedenceOf rule.alts.length num) := by
  unfold RuleDef.lastDemand
  rw [h.get]
  dsimp only
  rw [h.shaped, assocOf_eq]
  cases shape with
  | binary | ternary =>
      dsimp only [AltShape.demand, Assoc.nextPrecedence, precedenceOf]
      split <;> rfl
  | _ => rfl

theorem HandsOver.nodes_subset {rule : RuleDef} {num : Nat} {origin : Alt} {shape : AltShape}
    (h : rule.HandsOver num origin shape) : Element.listNodes (rule.carried num) ⊆ rule.nodes := by
  refine List.Subset.trans ?_ (Alt.nodes_subset_of_mem h.mem)
  rw [h.carried, Alt.carried]
  split
  · cases origin.elements with
    | nil => exact List.Subset.refl _
    | cons first rest => exact List.subset_append_right ..
  · exact List.Subset.refl _

end RuleDef

theorem ruleRefs_of_refersTo {e : Element} {name : String} (h : e.refersTo name = true) :
    ∃ ref, ruleRefs e.nodes = [ref] ∧ ref.name = name := by
  unfold Element.refersTo at h
  obtain ⟨ref, href, hname⟩ := (Option.any_eq_true _ _).mp h
  refine ⟨ref, ?_, by simpa using hname⟩
  unfold Element.asRuleRef? at href
  split at href
  · obtain rfl := Option.some.inj href
    rfl
  · obtain rfl := Option.some.inj href
    rfl
  · cases href

theorem ruleRefs_of_isSilent {es : List Element} (h : ∀ e ∈ es, e.isSilent = true) :
    ruleRefs (Element.listNodes es) = [] := by
  induction es with
  | nil => rfl
  | cons e es ih =>
      obtain ⟨he, hes⟩ := List.forall_mem_cons.mp h
      rw [Element.listNodes, ruleRefs_append, ih hes, List.append_nil]
      cases e <;> first | rfl | cases he

/-- The last reference that goes over from an alternative with a last operand is that operand. -/
theorem RuleDef.HandsOver.carriedRefs {rule : RuleDef} {num : Nat} {origin : Alt} {shape : AltShape}
    (h : rule.HandsOver num origin shape) (hoperand : shape.hasLastOperand = true) :
    ∃ front last, rule.carriedRefs num = front ++ [last] ∧ last.name = rule.name := by
  obtain ⟨front, last, back, helements, hlast, hback⟩ := Alt.exists_operand h.shaped hoperand
  obtain ⟨ref, href, hname⟩ := ruleRefs_of_refersTo hlast
  refine ⟨ruleRefs (Element.listNodes front), ref, ?_, hname⟩
  unfold RuleDef.carriedRefs
  rw [h.carried, helements, Element.listNodes_append, ruleRefs_append, Element.listNodes, ruleRefs_append,
    href, ruleRefs_of_isSilent hback, List.append_nil]

theorem AltShape.hasLastOperand_of_demand {shape : AltShape} {assoc : Assoc} {precedence k : Nat}
    (h : shape.demand assoc precedence = some k) : shape.hasLastOperand = true := by
  cases shape <;> first | rfl | cases h

/-- The references that remain of an alternative: the last operand demands a precedence. -/
theorem RuleDef.HandsOver.ruleRefs_remainder {rule : RuleDef} {num : Nat} {origin : Alt}
    {shape : AltShape} (h : rule.HandsOver num origin shape) {precedence : Nat} {front : List RuleRef}
    {last : RuleRef} (hrefs : rule.carriedRefs num = front ++ [last]) (hname : last.name = rule.name) :
    ruleRefs (origin.remainder rule.name shape (some precedence)).nodes = front ++
      [{ last with options := last.options.set precedenceOption (toString precedence) }] := by
  refine Alt.ruleRefs_withPrecedence ?_ hname precedence
  rw [Alt.nodes_eq, Alt.elements_kept h.shaped, ← h.carried]
  exact hrefs

theorem RuleDef.HandsOver.strayNames {rule : RuleDef} {num : Nat} {origin : Alt} {shape : AltShape}
    (h : rule.HandsOver num origin shape) : rule.strayNames num =
      if origin.isCut shape then Element.strayNames (origin.carried shape) else [] := by
  unfold RuleDef.strayNames
  rw [h.get]
  dsimp only
  rw [h.shaped]
  rfl

/-- The references that stand in the new rule for an alternative: those that are read off a lexer command,
and copies of those that remain. -/
theorem RuleDef.HandsOver.refMarks_rebuilt {rule : RuleDef} {num : Nat} {origin : Alt} {shape : AltShape}
    (h : rule.HandsOver num origin shape) (grammar : Grammar) :
    (Element.listNodes (grammar.rebuilt rule num)).filterMap Element.refMark? =
      (rule.strayNames num).map RefMark.bare ++
        (ruleRefs (origin.remainder rule.name shape (shape.demand (grammar.assocOf origin).1
          (precedenceOf rule.alts.length num))).nodes).map RuleRef.copyMark := by
  have hcopied : ∀ es : List Element, (Element.listNodes (Element.allCopied es)).filterMap
      Element.refMark? = (ruleRefs (Element.listNodes es)).map RuleRef.copyMark := by
    intro es
    unfold ruleRefs
    rw [List.map_filterMap]
    exact Element.filterMap_allRecast refMark?_copied es
  unfold Grammar.rebuilt
  rw [h.get, h.strayNames]
  dsimp only
  rw [h.shaped, Alt.nodes_eq]
  dsimp only
  unfold Element.asRead
  split
  · rw [Element.refMark?_signless, Element.strayNames_allCopied, Alt.strayNames_remainder h.shaped, hcopied]
  · exact hcopied _

/-- What is told by the references that stand in the new rule for those of an alternative. -/
theorem RuleDef.HandsOver.marks {rule : RuleDef} {num : Nat} {origin : Alt} {shape : AltShape}
    (h : rule.HandsOver num origin shape) (hoptions : LacksOptions rule.nodes) (grammar : Grammar)
    (names : List String) :
    ((Element.listNodes (grammar.rebuilt rule num)).filterMap Element.refMark?).map
      (RefMark.demandAny names) = rule.readMarks names num := by
  have hvalues : ∀ ref ∈ rule.carriedRefs num, ref.options.values precedenceOption = [] :=
    fun ref href => hoptions.values
      (List.filterMap_subset Element.ruleRef? h.nodes_subset href) precedenceOption
  have hany : ∀ refs ⊆ rule.carriedRefs num, (refs.map RuleRef.copyMark).map (RefMark.demandAny names) =
      refs.map fun ref => ⟨ref.name, some (toString ref.extent.start),
        if names.contains ref.name then ["0"] else []⟩ := by
    intro refs hrefs
    rw [List.map_map]
    refine List.map_congr_left fun ref href => ?_
    have hnone := hvalues ref (hrefs href)
    unfold RuleRef.copyMark RefMark.demandAny
    simp only [Function.comp, hnone, List.isEmpty_nil, Bool.and_true]
    split <;> rfl
  have hstray : ((rule.strayNames num).map RefMark.bare).map (RefMark.demandAny names) =
      (rule.strayNames num).map fun name => ⟨name, none, if names.contains name then ["0"] else []⟩ := by
    rw [List.map_map]
    refine List.map_congr_left fun name _ => ?_
    unfold RefMark.bare RefMark.demandAny
    simp only [Function.comp, List.isEmpty_nil, Bool.and_true]
    split <;> rfl
  rw [h.refMarks_rebuilt grammar, List.map_append, hstray, ← h.lastDemand grammar]
  unfold RuleDef.readMarks RuleDef.marksOf
  refine congrArg (_ ++ ·) ?_
  cases hdemand : rule.lastDemand num with
  | none =>
      rw [show (origin.remainder rule.name shape none).nodes = Element.listNodes (rule.carried num) by
        rw [h.carried, ← Alt.elements_kept h.shaped, ← Alt.nodes_eq]
        rfl]
      exact hany _ (List.Subset.refl _)
  | some precedence =>
      rw [h.lastDemand grammar] at hdemand
      obtain ⟨front, last, hrefs, hname⟩ := h.carriedRefs (AltShape.hasLastOperand_of_demand hdemand)
      have hlast : last.options.values precedenceOption = [] :=
        hvalues last (hrefs ▸ List.mem_append_right _ (List.mem_singleton_self _))
      dsimp only
      rw [h.ruleRefs_remainder hrefs hname, List.map_append, List.map_append,
        hany front (hrefs ▸ List.subset_append_left ..), hrefs, List.dropLast_concat,
        List.getLast?_concat]
      refine congrArg (_ ++ ·) ?_
      unfold RuleRef.copyMark RefMark.demandAny
      simp [Options.values_set_of_nil hlast, hname]

/-! ## All references -/

/-- What a reference of a rule that is not replaced tells afterwards. -/
def RuleRef.plainMark (names : List String) (ref : RuleRef) : RefMark :=
  ⟨ref.name, none, if names.contains ref.name then ["0"] else []⟩

theorem refMark?_unplaced (e : Element) : e.unplaced.refMark? = e.refMark? := by
  cases e <;> rfl

/-- The references of a rule without options. -/
theorem refMarks_of_lacksOptions {rule : RuleDef} (h : LacksOptions rule.nodes) (names : List String) :
    (rule.nodes.filterMap Element.refMark?).map (RefMark.demandAny names) =
      (ruleRefs rule.nodes).map (RuleRef.plainMark names) := by
  unfold ruleRefs
  rw [List.map_filterMap, List.map_filterMap]
  refine List.filterMap_congr fun e he => ?_
  cases e with
  | ruleRef ref =>
      refine congrArg some ?_
      have hnone : ref.options = .none := h _ he
      unfold RuleRef.mark RefMark.demandAny RuleRef.plainMark
      rw [hnone]
      simp only [Options.values, Options.none, List.filter_nil, List.map_nil, List.isEmpty_nil,
        Bool.and_true]
      split <;> rfl
  | _ => rfl

namespace Grammar

/-- The references of a loop that has taken the place of a rule. -/
theorem Unrolls.marks {grammar : Grammar} {written next : RuleDef} (h : grammar.Unrolls written next)
    (hoptions : LacksOptions written.nodes) (names : List String) :
    (demandAny names next).IsLoop ∧
      (demandAny names next).primaryBlock.map (·.views Element.refMark?) =
        written.primaryNumbers.map (written.readMarks names) ∧
      (demandAny names next).operatorBlock.map (·.views Element.refMark?) =
        written.operatorNumbers.map (written.readMarks names) := by
  obtain ⟨hloop, hprimary, hoperators⟩ := h.loop.mapOptions (demandingAny names)
  refine ⟨hloop, ?_, ?_⟩
  · rw [demandAny_eq, hprimary, views_demandAny, h.views_primary refMark?_unplaced fun _ => rfl,
      List.map_map]
    refine List.map_congr_left fun num hnum => ?_
    obtain ⟨origin, shape, hover, -⟩ := RuleDef.exists_of_mem_primaryNumbers hnum
    exact hover.marks hoptions grammar names
  · rw [demandAny_eq, hoperators, views_demandAny, h.views_operators refMark?_unplaced fun _ => rfl,
      List.map_map]
    refine List.map_congr_left fun num hnum => ?_
    obtain ⟨origin, shape, hover, -⟩ := RuleDef.exists_of_mem_operatorNumbers hnum
    exact hover.marks hoptions grammar names

/-- A reference in an alternative of a rule that was replaced demands one precedence if it is to a rule
that was replaced. -/
theorem length_demands_of_mem_readMarks {written : RuleDef} {names : List String} {num : Nat}
    {mark : RefMark} (h : mark ∈ written.readMarks names num) (hname : names.contains written.name = true) :
    mark.demands.length = if names.contains mark.name then 1 else 0 := by
  have hany : ∀ refs : List RuleRef, mark ∈ (refs.map fun ref => RefMark.mk ref.name
      (some (toString ref.extent.start)) (if names.contains ref.name then ["0"] else [])) →
      mark.demands.length = if names.contains mark.name then 1 else 0 := by
    intro refs hmark
    obtain ⟨ref, -, rfl⟩ := List.mem_map.mp hmark
    dsimp only
    split <;> rfl
  rcases List.mem_append.mp h with h | h
  · obtain ⟨name, -, rfl⟩ := List.mem_map.mp h
    dsimp only
    split <;> rfl
  unfold RuleDef.marksOf at h
  dsimp only at h
  split at h
  · exact hany _ h
  · rcases List.mem_append.mp h with h | h
    · exact hany _ h
    · obtain ⟨last, -, rfl⟩ := List.mem_map.mp h
      rw [if_pos hname]
      rfl

/-- What the references in the rules of a grammar demand once the rules of some names have been
replaced. -/
structure Demanding (before after : Grammar) (names : List String) : Prop where
  /-- References to rules that were replaced demand one precedence, and all others none. -/
  single : ∀ definition ∈ after.source.rules, ∀ ref ∈ ruleRefs definition.nodes,
    (ref.options.values precedenceOption).length = if names.contains ref.name then 1 else 0
  /-- A rule that was replaced holds the references of its alternatives, one alternative after
  another. -/
  replaced : ∀ name ∈ names, ∃ rule written next, before.rule? name = some rule ∧
    before.definition? rule = some written ∧ after.source.rules[rule.defIndex]? = some next ∧
    next.name = name ∧
    (written.primaryNumbers ++ written.operatorNumbers).Perm (List.range' 1 written.alts.length) ∧
    next.primaryBlock.map (·.views Element.refMark?) =
      written.primaryNumbers.map (written.readMarks names) ∧
    next.operatorBlock.map (·.views Element.refMark?) =
      written.operatorNumbers.map (written.readMarks names) ∧
    next.nodes.filterMap Element.refMark? =
      (written.primaryNumbers ++ written.operatorNumbers).flatMap (written.readMarks names)
  /-- Any other definition holds the references it held. -/
  others : ∀ (place : Nat) written, before.source.rules[place]? = some written →
    (∀ name ∈ names, ∀ rule, before.rule? name = some rule → rule.defIndex ≠ place) →
    ∃ next, after.source.rules[place]? = some next ∧
      next.nodes.filterMap Element.refMark? = (ruleRefs written.nodes).map (RuleRef.plainMark names)

/-- A rule that is found by a name that is replaced, and what has taken its place. -/
theorem Unrolled.exists_next {before unrolled : Grammar} {names : List String}
    (h : before.Unrolled unrolled names) (htied : before.Tied) {name : String} (hname : name ∈ names)
    {rule : Rule} {written : RuleDef} (hrule : before.rule? name = some rule)
    (hwritten : before.definition? rule = some written) :
    ∃ next, unrolled.source.rules[rule.defIndex]? = some next ∧ before.Unrolls written next ∧
      written.name = name := by
  obtain ⟨next, hnext, hunrolls⟩ := h.loops name hname rule written hrule hwritten
  exact ⟨next, hnext, hunrolls, (htied.names rule (List.mem_of_find?_eq_some hrule) written hwritten).1.trans
    (name_of_rule? hrule)⟩

section Demanding

variable {before unrolled after : Grammar} {names : List String}
  (h : before.Unrolled unrolled names) (htied : before.Tied)
  (hrules : ∀ name ∈ names, ∃ rule written, before.rule? name = some rule ∧
    before.definition? rule = some written)
  (hoptions : ∀ rule ∈ before.source.rules, LacksOptions rule.nodes)
  (hafter : ∀ place : Nat, after.source.rules[place]? =
    (unrolled.source.rules[place]?).map (demandAny names))

include h htied hrules hoptions hafter

theorem Unrolled.demanding_replaced {name : String} (hname : name ∈ names) :
    ∃ rule written next, before.rule? name = some rule ∧
      before.definition? rule = some written ∧ after.source.rules[rule.defIndex]? = some next ∧
      next.name = name ∧
      (written.primaryNumbers ++ written.operatorNumbers).Perm (List.range' 1 written.alts.length) ∧
      next.primaryBlock.map (·.views Element.refMark?) =
        written.primaryNumbers.map (written.readMarks names) ∧
      next.operatorBlock.map (·.views Element.refMark?) =
        written.operatorNumbers.map (written.readMarks names) ∧
      next.nodes.filterMap Element.refMark? =
        (written.primaryNumbers ++ written.operatorNumbers).flatMap (written.readMarks names) := by
  obtain ⟨rule, written, hrule, hwritten⟩ := hrules name hname
  obtain ⟨next, hnext, hunrolls, hnamed⟩ := h.exists_next htied hname hrule hwritten
  obtain ⟨hloop, hprimary, hoperators⟩ :=
    hunrolls.marks (hoptions written (List.mem_of_getElem? hwritten)) names
  refine ⟨rule, written, demandAny names next, hrule, hwritten, ?_, hunrolls.name.trans hnamed,
    hunrolls.once, hprimary, hoperators, ?_⟩
  · rw [hafter, hnext]
    rfl
  · rw [hloop.views_nodes (fun _ _ _ => rfl) (fun _ _ _ => rfl), List.flatMap_append,
      List.flatMap_append, List.flatMap_def, List.flatMap_def, List.flatMap_def, List.flatMap_def,
      hprimary, hoperators]

omit htied hrules in
theorem Unrolled.demanding_others {place : Nat} {written : RuleDef}
    (hwritten : before.source.rules[place]? = some written)
    (hplace : ∀ name ∈ names, ∀ rule, before.rule? name = some rule → rule.defIndex ≠ place) :
    ∃ next, after.source.rules[place]? = some next ∧
      next.nodes.filterMap Element.refMark? =
        (ruleRefs written.nodes).map (RuleRef.plainMark names) := by
  refine ⟨demandAny names written, ?_, ?_⟩
  · rw [hafter, h.others place hplace, hwritten]
    rfl
  · rw [refMarks_demandAny]
    exact refMarks_of_lacksOptions (hoptions written (List.mem_of_getElem? hwritten)) names

/-- What references demand is told by what rules have become. -/
theorem Unrolled.demanding : before.Demanding after names := by
  refine ⟨fun definition hdefinition ref href => ?_,
    fun name hname => h.demanding_replaced htied hrules hoptions hafter hname,
    fun place written hwritten hplace => h.demanding_others hoptions hafter hwritten hplace⟩
  obtain ⟨place, hplace⟩ := List.mem_iff_getElem?.mp hdefinition
  have hmark : ref.mark ∈ definition.nodes.filterMap Element.refMark? := by
    obtain ⟨e, he, heq⟩ := List.mem_filterMap.mp href
    exact List.mem_filterMap.mpr ⟨e, he, congrArg (Option.map RuleRef.mark) heq⟩
  show ref.mark.demands.length = if names.contains ref.mark.name then 1 else 0
  by_cases hothers : ∀ name ∈ names, ∀ rule, before.rule? name = some rule → rule.defIndex ≠ place
  · -- the definition is what it was
    have hwritten := hplace
    rw [hafter, h.others place hothers] at hwritten
    obtain ⟨written, hwritten, -⟩ := Option.map_eq_some_iff.mp hwritten
    obtain ⟨next, hnext, hmarks⟩ := h.demanding_others hoptions hafter hwritten hothers
    obtain rfl : definition = next := Option.some.inj (hplace.symm.trans hnext)
    rw [hmarks] at hmark
    obtain ⟨r, -, hr⟩ := List.mem_map.mp hmark
    rw [← hr]
    unfold RuleRef.plainMark
    dsimp only
    split <;> rfl
  · -- the definition stands for a rule that was replaced
    push Not at hothers
    obtain ⟨name, hname, rule, hrule, rfl⟩ := hothers
    obtain ⟨rule', written, next, hrule', hwritten, hnext, hnamed, -, -, -, hmarks⟩ :=
      h.demanding_replaced htied hrules hoptions hafter hname
    obtain rfl : rule = rule' := Option.some.inj (hrule.symm.trans hrule')
    obtain rfl : definition = next := Option.some.inj (hplace.symm.trans hnext)
    rw [hmarks] at hmark
    obtain ⟨num, -, hnum⟩ := List.mem_flatMap.mp hmark
    refine length_demands_of_mem_readMarks hnum ?_
    rw [(htied.names rule (List.mem_of_find?_eq_some hrule) written hwritten).1, name_of_rule? hrule]
    exact List.contains_iff_mem.mpr hname

end Demanding

/-- Once left recursion has been eliminated from a grammar without imports and without options of
elements, references demand the precedences they should: the last operand of an operator that of its
alternative, other references to rules that were replaced 0, and references to other rules none. -/
theorem eliminate_demands {library : Library} {file source : String} {grammar : Grammar}
    {report : Report} (hgather : gather library file source = (some grammar, report))
    (himports : grammar.source.imports = [])
    (hoptions : ∀ rule ∈ grammar.source.rules, LacksOptions rule.nodes)
    (hnames : ∀ rule ∈ grammar.source.rules, rule.isLeftRecursive = true → rule.KeepsName)
    (hissues : AllWarnings (grammar.eliminate .standard).2.1) :
    (grammar.eliminate .standard).2.2 = grammar.leftRecursiveRules ∧
      grammar.Demanding (grammar.eliminate .standard).1 grammar.leftRecursiveRules := by
  obtain ⟨unrolled, hunrolled, heliminate⟩ := unrolled_eliminate hgather himports
    ⟨fun rule hrule _ _ => (hoptions rule hrule).unquotedIn _,
      fun rule hrule _ => hnames rule hrule⟩ hissues
  rw [heliminate]
  refine ⟨rfl, hunrolled.demanding (tied_gather hgather) (fun name hname => ?_) hoptions
    fun place => List.getElem?_map ..⟩
  obtain ⟨rule, written, hrule, hwritten, -⟩ :=
    (mem_leftRecursiveRules (nodup_gather hgather)).mp hname
  exact ⟨rule, written, hrule, hwritten⟩

/-- Operators that are grouped to the left and to the right, one that is nothing but a lexer command, and a
reference from another rule. -/
theorem exists_commanded : ∃ (grammar : Grammar) (report : Report) (rule : Rule) (written : RuleDef),
    gather .empty "T.g" "parser grammar T; e : e B e | <assoc=right> e C e | e -> e(s) | Y ; s : e ;" =
      (some grammar, report) ∧
    grammar.rule? "e" = some rule ∧ grammar.definition? rule = some written ∧
    grammar.source.imports = [] ∧ (∀ rule ∈ grammar.source.rules, LacksOptions rule.nodes) ∧
    (∀ rule ∈ grammar.source.rules, rule.isLeftRecursive = true → rule.KeepsName) ∧
    AllWarnings (grammar.eliminate .standard).2.1 ∧ grammar.leftRecursiveRules = ["e"] ∧
    (written.readMarks ["e"] 1).map RefMark.demands = [["5"]] ∧
    (written.readMarks ["e"] 2).map RefMark.demands = [["3"]] ∧
    written.readMarks ["e"] 3 = [⟨"e", none, ["0"]⟩, ⟨"s", none, []⟩] := by
  have hgood : (gather .empty "T.g"
      "parser grammar T; e : e B e | <assoc=right> e C e | e -> e(s) | Y ; s : e ;").1.any
        fun grammar => (grammar.rule? "e").any fun rule => (grammar.definition? rule).any fun written =>
      decide (grammar.source.imports = [] ∧
        (∀ rule ∈ grammar.source.rules, LacksOptions rule.nodes) ∧
        (∀ rule ∈ grammar.source.rules, rule.isLeftRecursive = true → rule.KeepsName) ∧
        (∀ issue ∈ (grammar.eliminate .standard).2.1, issue.severity = .warning) ∧
        grammar.leftRecursiveRules = ["e"] ∧
        (written.readMarks ["e"] 1).map RefMark.demands = [["5"]] ∧
        (written.readMarks ["e"] 2).map RefMark.demands = [["3"]] ∧
        written.readMarks ["e"] 3 = [⟨"e", none, ["0"]⟩, ⟨"s", none, []⟩]) := by
    decide +kernel
  obtain ⟨grammar, report, hgather, hgood⟩ := exists_gather_of_any hgood
  obtain ⟨rule, hrule, hgood⟩ := (Option.any_eq_true _ _).mp hgood
  obtain ⟨written, hwritten, hgood⟩ := (Option.any_eq_true _ _).mp hgood
  obtain ⟨himports, hoptions, hnames, hissues, hrest⟩ := of_decide_eq_true hgood
  exact ⟨grammar, report, rule, written, hgather, hrule, hwritten, himports, hoptions, hnames, hissues,
    hrest⟩

/-- The last operands demand 5 and 3, what the command is read as demands 0 and nothing, and the other rule
demands 0. -/
theorem eliminate_demands_grouped :
    ∃ (grammar : Grammar) (report : Report) (rule : Rule) (written : RuleDef),
      gather .empty "T.g" "parser grammar T; e : e B e | <assoc=right> e C e | e -> e(s) | Y ; s : e ;" =
        (some grammar, report) ∧
      grammar.rule? "e" = some rule ∧ grammar.definition? rule = some written ∧
      (written.readMarks ["e"] 1).map RefMark.demands = [["5"]] ∧
      (written.readMarks ["e"] 2).map RefMark.demands = [["3"]] ∧
      written.readMarks ["e"] 3 = [⟨"e", none, ["0"]⟩, ⟨"s", none, []⟩] ∧
      (grammar.eliminate .standard).2.2 = ["e"] ∧
      grammar.Demanding (grammar.eliminate .standard).1 ["e"] := by
  obtain ⟨grammar, report, rule, written, hgather, hrule, hwritten, himports, hoptions, hnames, hissues,
    hlist, hfirst, hsecond, hthird⟩ := exists_commanded
  refine ⟨grammar, report, rule, written, hgather, hrule, hwritten, hfirst, hsecond, hthird, ?_⟩
  rw [← hlist]
  exact eliminate_demands hgather himports hoptions hnames hissues

end Grammar

end GrammarCompiler
