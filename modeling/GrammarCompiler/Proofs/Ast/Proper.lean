import GrammarCompiler.Proofs.Ast.Reread
import GrammarCompiler.Proofs.Ast.Stamped

/-!
# Where sets and commands stand

A set of symbols is read behind a negation only, for without it a group in parentheses is a block.
Lexer commands are read behind all other elements of an alternative, and the argument of a command is
a single name: a grammar in which anything is left over behind it cannot be read
(`GrammarDef.proper_of_parse`).
-/

namespace GrammarCompiler

open TokenTree (leaf group)

mutual
/-- Whether sets of symbols stand behind negations only, lexer commands behind everything else, and
whether the argument of every command is a single token. -/
def Element.isProper : Element → Bool
  | .block alts _ _ => Alt.allProper alts
  | .suffixed _ _ element _ => element.isProper
  | .labeled _ _ _ element _ => element.isProper
  | .command _ arg extent => arg.isNone || extent.stop == extent.start + 3
  | .set .. => false
  | _ => true

def Element.allProper : List Element → Bool
  | [] => true
  | e :: es => (e.isProper && (!e.isCommand || es.all Element.isCommand)) && Element.allProper es

/-- Whether this holds of the elements of an alternative. -/
def Alt.isProper : Alt → Bool
  | ⟨elements, _, _, _, _⟩ => Element.allProper elements

def Alt.allProper : List Alt → Bool
  | [] => true
  | a :: as => a.isProper && Alt.allProper as
end

theorem Alt.isProper_eq (a : Alt) : a.isProper = Element.allProper a.elements := by
  cases a
  rfl

theorem Alt.nodes_eq (a : Alt) : a.nodes = Element.listNodes a.elements := by
  cases a
  rfl

/-- Whether there is no lexer command among elements. -/
def LacksCommands (nodes : List Element) : Prop :=
  ∀ e ∈ nodes, e.isCommand = false

instance (nodes : List Element) : Decidable (LacksCommands nodes) :=
  inferInstanceAs (Decidable (∀ e ∈ nodes, _))

theorem Element.listNodes_append (es fs : List Element) :
    Element.listNodes (es ++ fs) = Element.listNodes es ++ Element.listNodes fs := by
  induction es with
  | nil => rfl
  | cons e es ih => rw [List.cons_append, Element.listNodes, Element.listNodes, ih, List.append_assoc]

namespace Element

theorem allProper_cons {e : Element} {es : List Element} :
    Element.allProper (e :: es) = true ↔ e.isProper = true ∧
      (e.isCommand = true → ∀ other ∈ es, other.isCommand = true) ∧ Element.allProper es = true := by
  rw [Element.allProper, Bool.and_eq_true, Bool.and_eq_true, and_assoc, Bool.or_eq_true,
    List.all_eq_true]
  cases e.isCommand <;> simp

/-- Commands that are proper stand behind elements that are. -/
theorem allProper_append {es cs : List Element} (hes : Element.allProper es = true)
    (hnone : ∀ e ∈ es, e.isCommand = false)
    (hcs : ∀ e ∈ cs, e.isProper = true ∧ e.isCommand = true) :
    Element.allProper (es ++ cs) = true := by
  induction es with
  | nil =>
      induction cs with
      | nil => rfl
      | cons c cs ih =>
          obtain ⟨hc, hcs⟩ := List.forall_mem_cons.mp hcs
          exact allProper_cons.mpr ⟨hc.1, fun _ other hother => (hcs other hother).2, ih hcs⟩
  | cons e es ih =>
      obtain ⟨he, -, hes⟩ := allProper_cons.mp hes
      obtain ⟨hfirst, hnone⟩ := List.forall_mem_cons.mp hnone
      refine allProper_cons.mpr ⟨he, fun h => ?_, ih hes hnone⟩
      rw [hfirst] at h
      cases h

end Element

namespace Cursor

/-! ## Readers that leave nothing over -/

/-- What a reader finds if nothing has been left over by then. -/
def Sifts {α : Type} {Q : Cursor → Prop} (c : Cursor) (x : Except SyntaxError (α × { d // Q d }))
    (P : α → Prop) : Prop :=
  Yields x fun a d => d.stray = none → c.stray = none ∧ P a

namespace Sifts

variable {α β : Type} {c d : Cursor} {Q R : Cursor → Prop} {P : α → Prop}
  {x : Except SyntaxError (α × { d // Q d })}

theorem ok {a : α} {hc : Q c} (h : P a) : Sifts c (.ok (a, (⟨c, hc⟩ : { d // Q d }))) P :=
  Yields.ok fun hstray => ⟨hstray, h⟩

/-- Reading from further on. -/
theorem past (h : Sifts d x P) (hpast : c.Past d) : Sifts c x P :=
  Yields.mono h fun _ _ ha hstray => ⟨(hpast (ha hstray).1).1, (ha hstray).2⟩

/-- Reading on. -/
theorem bind {f : α × { d // Q d } → Except SyntaxError (β × { d // R d })} {P' : β → Prop}
    (h : Sifts c x P) (hnext : ∀ a d hd, Sifts d (f (a, ⟨d, hd⟩)) fun b => P a → P' b) :
    Sifts c (x >>= f) P' := by
  refine Yields.bind h fun a d hd ha => ?_
  refine Yields.mono (hnext a d hd) fun b e hb hstray => ?_
  obtain ⟨hd, hb⟩ := hb hstray
  obtain ⟨hc, ha⟩ := ha hd
  exact ⟨hc, hb ha⟩

end Sifts

/-- A reader that agrees with itself forgets nothing that was left over. -/
theorem sifts_of_agrees {α : Type} {m n : Nat} {move : Nat → α → α} {c : Cursor}
    {Q Q' : Cursor → Prop} {x : Except SyntaxError (α × { d // Q d })}
    {x' : Except SyntaxError (α × { d // Q' d })} (h : Agrees m n move c x x') {P : α → Prop}
    (hx : Yields x fun a _ => P a) : Sifts c x P :=
  fun a d hd hread hstray => ⟨(h.past_of_eq_ok hread hstray).1, hx a d hd hread⟩

/-! ## Lexer commands -/

/-- An argument of a command is a single token. -/
theorem sifts_commandArg (c : Cursor) :
    Sifts c c.commandArg fun a => a.1.isNone = true ∨ a.2 = some (c.index + 2) := by
  rintro ⟨arg, close⟩ d hd hread hstray
  refine ⟨((Alike.refl c).commandArg.past_of_eq_ok hread hstray).1, ?_⟩
  unfold commandArg at hread
  split at hread
  · next opened closed body rest htrees =>
      obtain ⟨⟨⟨text, index⟩, e, he⟩, hname, hread⟩ := ok_of_bind hread
      obtain ⟨hresult, hrest⟩ := Prod.mk.inj (Except.ok.inj hread)
      obtain ⟨rfl, rfl⟩ := Prod.mk.inj hresult
      obtain ⟨-, p, hbody⟩ := takes_ident hname
      have hend : e.trees = [] := by
        obtain ⟨-, hleft⟩ := Option.or_eq_none_iff.mp ((congrArg stray (congrArg Subtype.val hrest)).trans
          hstray)
        exact List.head?_eq_none_iff.mp (Option.map_eq_none_iff.mp hleft)
      have hbody' : body = [leaf (.ident text) p] :=
        hbody.1.trans (congrArg ([leaf (.ident text) p] ++ ·) hend)
      right
      rw [hbody']
      rfl
  · obtain ⟨hresult, -⟩ := Prod.mk.inj (Except.ok.inj hread)
    obtain ⟨rfl, -⟩ := Prod.mk.inj hresult
    exact .inl rfl

/-- Commands that are read are proper. -/
theorem sifts_commands (c : Cursor) :
    Sifts c c.commands fun es => ∀ e ∈ es, e.isProper = true ∧ e.isCommand = true := by
  rw [commands]
  refine Yields.bind (show Yields _ fun a d => d.index = a.2 + 1 ∧ c.Past d from ?_) ?_
  · rintro ⟨name, index⟩ d hd hread
    obtain ⟨rfl, p, htakes⟩ := takes_ident hread
    exact ⟨htakes.2, past_ident hread⟩
  rintro ⟨name, index⟩ d hd ⟨hindex, hpast⟩
  refine Sifts.past (Sifts.bind (sifts_commandArg d) ?_) hpast
  rintro ⟨arg, close⟩ e he
  have hproper : arg.isNone = true ∨ close = some (d.index + 2) →
      (Element.command name arg ⟨index, close.getD index⟩).isProper = true := by
    rintro (hnone | rfl)
    · rw [Element.isProper, hnone]
      rfl
    · rw [Element.isProper, hindex]
      simp
  dsimp only
  split
  · next f hf hcomma =>
      refine Sifts.past (Sifts.bind (sifts_commands f) fun es g hg => ?_)
        (past_punct? hcomma (by decide))
      exact .ok fun hes harg => List.forall_mem_cons.mpr ⟨⟨hproper harg, rfl⟩, hes⟩
  · refine .ok fun harg x hx => ?_
    rw [List.mem_singleton.mp hx]
    exact ⟨hproper harg, rfl⟩
termination_by c.size

theorem sifts_commandList (c : Cursor) :
    Sifts c c.commandList fun es => ∀ e ∈ es, e.isProper = true ∧ e.isCommand = true := by
  refine fun es d hd hread hstray => ⟨((Alike.refl c).commandList.past_of_eq_ok hread hstray).1, ?_⟩
  unfold commandList at hread
  split at hread
  · obtain ⟨rfl, -⟩ := Prod.mk.inj (Except.ok.inj hread)
    exact fun _ he => absurd he List.not_mem_nil
  · next f hf _ =>
      obtain ⟨⟨commands, e, he⟩, hcommands, hread⟩ := ok_of_bind hread
      obtain ⟨rfl, hrest⟩ := Prod.mk.inj (Except.ok.inj hread)
      obtain rfl : e = d := congrArg Subtype.val hrest
      exact (sifts_commands f commands e he hcommands hstray).2

/-! ## Other elements -/

theorem proper_quotationOrRange (c : Cursor) :
    Yields c.quotationOrRange fun e _ => e.isProper = true ∧ e.isCommand = false := by
  unfold quotationOrRange
  refine (Yields.trivial _).bind fun first d hd _ => ?_
  dsimp only
  split
  · exact (Yields.trivial _).bind fun last f hf _ => .ok ⟨rfl, rfl⟩
  · exact (Yields.trivial _).bind fun options f hf _ => .ok ⟨rfl, rfl⟩

theorem proper_reference (c : Cursor) :
    Yields c.reference fun e _ => e.isProper = true ∧ e.isCommand = false := by
  unfold reference
  refine (Yields.trivial _).bind fun name d hd _ => ?_
  dsimp only
  split
  · exact (Yields.trivial _).bind fun options e he _ => .ok ⟨rfl, rfl⟩
  · split
    · exact (Yields.trivial _).bind fun args e he _ =>
        (Yields.trivial _).bind fun _ _ _ _ => .ok ⟨rfl, rfl⟩
    · exact (Yields.trivial _).bind fun options e he _ => .ok ⟨rfl, rfl⟩

theorem proper_embedded (c : Cursor) :
    Yields c.embedded fun e _ => e.isProper = true ∧ e.isCommand = false := by
  unfold embedded
  refine (Yields.trivial _).bind fun code d hd _ => ?_
  dsimp only
  split
  · exact (Yields.trivial _).bind fun options e he _ => .ok ⟨rfl, rfl⟩
  · exact .ok ⟨rfl, rfl⟩

theorem proper_symbol (c : Cursor) :
    Yields c.symbol fun e _ => e.isProper = true ∧ e.isCommand = false := by
  unfold symbol
  split
  · exact (Yields.trivial _).bind fun operand d hd _ => .ok ⟨rfl, rfl⟩
  · split
    · unfold wildcard
      exact (Yields.trivial _).bind fun _ d hd _ =>
        (Yields.trivial _).bind fun _ _ _ _ => .ok ⟨rfl, rfl⟩
    · split
      · exact proper_quotationOrRange c
      · exact proper_reference c

theorem sifts_suffixed (c : Cursor) (e : Element) :
    Sifts c (c.suffixed e) fun x => e.isProper = true ∧ e.isCommand = false →
      x.isProper = true ∧ x.isCommand = false := by
  refine sifts_of_agrees ((Alike.refl c).suffixed rfl) ?_
  rintro x d hd hread
  rcases suffixed_cases hread with ⟨suffix, greedy, extent, rfl⟩ | ⟨rfl, -⟩
  · exact fun he => ⟨he.1, rfl⟩
  · exact id

theorem proper_altOf {next : Nat} {options : Options} {es : List Element}
    {label : Option (AltLabel × Nat)} (h : Element.allProper es = true) :
    (altOf next options es label).isProper = true := by
  cases es with
  | nil => rfl
  | cons e es => exact h

/-! ## The descent -/

mutual
theorem sifts_alts (c : Cursor) : Sifts c c.alts fun as => Alt.allProper as = true := by
  rw [alts]
  refine (sifts_alt c).bind fun a d hd => ?_
  dsimp only
  split
  · next e he hread =>
      have hpast : d.Past e := by
        split at hread
        · cases hread
        · exact past_punct? hread (by decide)
      refine Sifts.past (Sifts.bind (sifts_alts e) fun as f hf => .ok fun has ha => ?_) hpast
      rw [Alt.allProper, ha, has]
      rfl
  · refine .ok fun ha => ?_
    rw [Alt.allProper, ha]
    rfl
termination_by 5 * c.size + 4

theorem sifts_alt (c : Cursor) : Sifts c c.alt fun a => a.isProper = true := by
  rw [alt]
  refine (sifts_of_agrees (Alike.refl c).options (.trivial _)).bind fun options d hd => ?_
  refine (sifts_elements d).bind fun es e he => ?_
  refine (sifts_commandList e).bind fun commands f hf => ?_
  refine (sifts_of_agrees (Alike.refl f).altLabel (.trivial _)).bind fun label g hg => ?_
  exact .ok fun _ hcommands hes _ => proper_altOf (Element.allProper_append hes.1 hes.2 hcommands)
termination_by 5 * c.size + 3

theorem sifts_elements (c : Cursor) : Sifts c c.elements fun es =>
    Element.allProper es = true ∧ ∀ e ∈ es, e.isCommand = false := by
  rw [elements]
  split
  · exact .ok ⟨rfl, fun _ he => absurd he List.not_mem_nil⟩
  · refine (sifts_element c).bind fun e d hd => ?_
    refine (sifts_elements d).bind fun es f hf => .ok fun hes he => ?_
    refine ⟨Element.allProper_cons.mpr ⟨he.1, fun h => ?_, hes.1⟩,
      List.forall_mem_cons.mpr ⟨he.2, hes.2⟩⟩
    rw [he.2] at h
    cases h
termination_by 5 * c.size + 2

theorem sifts_element (c : Cursor) :
    Sifts c c.element fun e => e.isProper = true ∧ e.isCommand = false := by
  rw [element]
  refine (sifts_of_agrees (Alike.refl c).elementLabel (.trivial _)).bind fun label d hd => ?_
  refine (sifts_atom d).bind fun bare e he => ?_
  have hlabeled : bare.isProper = true ∧ bare.isCommand = false →
      (match label with | some label => label.onto bare | none => bare).isProper = true ∧
        (match label with | some label => label.onto bare | none => bare).isCommand = false := by
    cases label with
    | none => exact id
    | some label => exact fun hbare => ⟨hbare.1, rfl⟩
  refine (sifts_suffixed e _).bind fun x f hf => ?_
  exact .ok fun hx hbare _ => hx (hlabeled hbare)
termination_by 5 * c.size + 1

theorem sifts_atom (c : Cursor) :
    Sifts c c.atom fun e => e.isProper = true ∧ e.isCommand = false := by
  cases htrees : c.trees with
  | nil =>
      refine sifts_of_agrees (Alike.refl c).atom ?_
      rw [atom_nil htrees]
      exact proper_symbol c
  | cons t ts =>
      cases t with
      | leaf token p =>
          refine sifts_of_agrees (Alike.refl c).atom ?_
          rw [atom_leaf htrees]
          exact proper_symbol c
      | group delimiter opened closed body =>
          cases delimiter with
          | bracket =>
              rw [atom_bracket htrees]
              exact Yields.error
          | brace =>
              refine sifts_of_agrees (Alike.refl c).atom ?_
              rw [atom_brace htrees]
              exact proper_embedded c
          | parenthesis =>
              have hsize := size_inside_lt htrees
              rw [atom_parenthesis htrees]
              refine Yields.bind (sifts_alts (c.inside body closed)) fun as d hd has => ?_
              dsimp only
              split
              · exact Yields.error
              · exact Yields.ok fun hstray => ⟨(has hstray).1, (has hstray).2, rfl⟩
termination_by 5 * c.size
end

theorem proper_rule (c : Cursor) :
    Yields c.rule fun rule d => d.stray = none → Alt.allProper rule.alts = true := by
  unfold rule
  refine (Yields.trivial _).bind fun mark d hd _ => ?_
  refine (Yields.trivial _).bind fun name e he _ => ?_
  refine (Yields.trivial _).bind fun args f hf _ => ?_
  refine (Yields.trivial _).bind fun returns g hg _ => ?_
  refine (Yields.trivial _).bind fun locals i hi _ => ?_
  refine (Yields.trivial _).bind fun settings j hj _ => ?_
  refine (Yields.trivial _).bind fun colon k hk _ => ?_
  refine Yields.bind (sifts_alts k) fun as l hl has => ?_
  refine Yields.bind
    (show Yields _ fun _ m => l.Past m from fun _ m hm hread => past_punct hread (by decide))
    fun semicolon m hm hpast => ?_
  exact .ok fun hstray => (has (hpast hstray).1).2

theorem proper_rules (c : Cursor) {rules : List RuleDef} {d : Cursor}
    (h : c.rules = .ok (rules, d)) (hstray : d.stray = none) :
    ∀ rule ∈ rules, Alt.allProper rule.alts = true := by
  rw [Cursor.rules] at h
  split at h
  · obtain ⟨rfl, -⟩ := Prod.mk.inj (Except.ok.inj h)
    exact fun _ hrule => absurd hrule List.not_mem_nil
  · obtain ⟨⟨rule, e, he⟩, hrule, h⟩ := ok_of_bind h
    obtain ⟨⟨rest, f⟩, hrest, h⟩ := ok_of_bind h
    obtain ⟨rfl, rfl⟩ := Prod.mk.inj (Except.ok.inj h)
    exact List.forall_mem_cons.mpr ⟨proper_rule c rule e he hrule (past_rules e hrest hstray).1,
      proper_rules e hrest hstray⟩
termination_by c.size

end Cursor

/-- Sets and commands stand where they should in all rules that are read. -/
theorem GrammarDef.proper_of_parse {file source : String} {g : GrammarDef}
    (h : GrammarDef.parse file source = .ok g) :
    ∀ rule ∈ g.rules, Alt.allProper rule.alts = true := by
  unfold GrammarDef.parse at h
  obtain ⟨trees, -, hread⟩ := ok_of_bind h
  unfold Cursor.grammar at hread
  obtain ⟨⟨kind, d₁, hd₁⟩, -, h⟩ := ok_of_bind hread
  obtain ⟨⟨_, d₂, hd₂⟩, -, h⟩ := ok_of_bind h
  obtain ⟨⟨⟨name, index⟩, d₃, hd₃⟩, -, h⟩ := ok_of_bind h
  obtain ⟨⟨semicolon, d₄, hd₄⟩, -, h⟩ := ok_of_bind h
  obtain ⟨⟨sections, d₅, hd₅⟩, -, h⟩ := ok_of_bind h
  obtain ⟨⟨rules, e⟩, hrules, h⟩ := ok_of_bind h
  obtain ⟨_, hfinish, h⟩ := ok_of_bind h
  obtain rfl := Except.ok.inj h
  exact Cursor.proper_rules d₅ hrules (Cursor.finish_eq_ok.mp hfinish).1

end GrammarCompiler
