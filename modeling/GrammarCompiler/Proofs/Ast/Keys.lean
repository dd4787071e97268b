import GrammarCompiler.Network.Basic
import GrammarCompiler.Proofs.Ast.Rules
import Mathlib.Data.List.Nodup

/-!
# Keys of decisions

A decision is found again by its key: the first token of a construct, and what is to be decided
about it. The keys of a rule are known from its definition (`RuleDef.keys`). Two decisions about
one rule have different keys, since constructs that begin with the same token are one inside the
other and have different sites (`RuleDef.Spelled.keys`).
-/

namespace GrammarCompiler

open TokenTree (leaf group widths)

/-- The keys of the decisions about a block under a suffix, given the number of its
alternatives. -/
def Suffix.keys (suffix : Suffix) (token first count : Nat) : List (Nat × DecisionSite) :=
  match suffix with
  | .optional => [(token, .optional)]
  | .closure => (if 1 < count then [(token, .starBlock)] else []) ++ [(first, .starLoopEntry)]
  | .positiveClosure => (if 1 < count then [(token, .plusBlock)] else []) ++ [(first, .plusLoopBack)]

/-- The key of the decision between alternatives, if there is one. -/
def choiceKeys (token : Nat) (site : DecisionSite) (count : Nat) : List (Nat × DecisionSite) :=
  if count = 1 then [] else [(token, site)]

mutual
/-- The keys of the decisions about an element, those inside it first. -/
def Element.keys : Element → List (Nat × DecisionSite)
  | .block alts _ extent => Alt.listKeys alts ++ choiceKeys extent.start .block alts.length
  | .suffixed suffix _ (.block alts _ inner) extent =>
    Alt.listKeys alts ++ suffix.keys inner.start extent.start alts.length
  | .suffixed suffix _ inner extent =>
    inner.keys ++ suffix.keys inner.extent.start extent.start 1
  | .labeled _ _ _ inner _ => inner.keys
  | _ => []

def Element.listKeys : List Element → List (Nat × DecisionSite)
  | [] => []
  | e :: es => e.keys ++ Element.listKeys es

def Alt.keys : Alt → List (Nat × DecisionSite)
  | ⟨elements, _, _, _, _⟩ => Element.listKeys elements

def Alt.listKeys : List Alt → List (Nat × DecisionSite)
  | [] => []
  | a :: as => a.keys ++ Alt.listKeys as
end

def RuleDef.keys (rule : RuleDef) : List (Nat × DecisionSite) :=
  Alt.listKeys rule.alts ++ choiceKeys rule.block.extent.start .ruleBlock rule.alts.length

/-! ## Suffixes -/

/-- The keys of what stands inside an element. A suffix takes the place of the choice between the
alternatives of a block. -/
def Element.innerKeys : Element → List (Nat × DecisionSite)
  | .block alts _ _ => Alt.listKeys alts
  | e => e.keys

/-- The number of alternatives of an element; all but blocks are their only one. -/
def Element.altCount : Element → Nat
  | .block alts _ _ => alts.length
  | _ => 1

theorem Element.keys_suffixed (suffix : Suffix) (greedy : Bool) (inner : Element)
    (extent : Extent) : (Element.suffixed suffix greedy inner extent).keys =
      inner.innerKeys ++ suffix.keys inner.extent.start extent.start inner.altCount := by
  cases inner <;> rfl

/-! ## Different keys -/

/-- Different keys of tokens from `lo` on and before `hi`, all about constructs inside a rule. -/
structure KeysWithin (lo hi : Nat) (keys : List (Nat × DecisionSite)) : Prop where
  nodup : keys.Nodup
  within : ∀ key ∈ keys, lo ≤ key.1 ∧ key.1 < hi
  site : ∀ key ∈ keys, key.2 ≠ .ruleBlock

section KeysWithin

variable {lo mid hi i : Nat} {keys keys' : List (Nat × DecisionSite)}

theorem KeysWithin.nil (lo hi : Nat) : KeysWithin lo hi [] :=
  ⟨List.nodup_nil, nofun, nofun⟩

theorem KeysWithin.mono {lo' hi' : Nat} (h : KeysWithin lo hi keys) (hlo : lo' ≤ lo)
    (hhi : hi ≤ hi') : KeysWithin lo' hi' keys :=
  ⟨h.nodup, fun key hkey =>
    ⟨Nat.le_trans hlo (h.within key hkey).1, Nat.lt_of_lt_of_le (h.within key hkey).2 hhi⟩, h.site⟩

theorem KeysWithin.append (h : KeysWithin lo mid keys) (h' : KeysWithin mid hi keys')
    (hlo : lo ≤ mid) (hhi : mid ≤ hi) : KeysWithin lo hi (keys ++ keys') := by
  refine ⟨List.nodup_append.mpr ⟨h.nodup, h'.nodup, ?_⟩, fun key hkey => ?_, fun key hkey => ?_⟩
  · rintro key hkey _ hkey' rfl
    exact absurd (h.within key hkey).2 (Nat.not_lt.mpr (h'.within key hkey').1)
  · rcases List.mem_append.mp hkey with hkey | hkey
    · exact (h.mono (Nat.le_refl lo) hhi).within key hkey
    · exact (h'.mono hlo (Nat.le_refl hi)).within key hkey
  · exact (List.mem_append.mp hkey).elim (h.site key) (h'.site key)

/-- What is inside a construct begins behind its first token. -/
theorem KeysWithin.around (h : KeysWithin (i + 1) hi keys) (hlt : i < hi)
    {own : List (Nat × DecisionSite)} (hown : own.Nodup)
    (hat : ∀ key ∈ own, key.1 = i ∧ key.2 ≠ .ruleBlock) : KeysWithin i hi (keys ++ own) := by
  refine ⟨List.nodup_append.mpr ⟨h.nodup, hown, ?_⟩, fun key hkey => ?_, fun key hkey => ?_⟩
  · rintro key hkey _ hkey' rfl
    have := (h.within key hkey).1
    have := (hat key hkey').1
    omega
  · rcases List.mem_append.mp hkey with hkey | hkey
    · exact (h.mono (Nat.le_succ i) (Nat.le_refl hi)).within key hkey
    · have := (hat key hkey).1
      omega
  · exact (List.mem_append.mp hkey).elim (h.site key) fun hkey => (hat key hkey).2

end KeysWithin

theorem Suffix.nodup_keys (suffix : Suffix) (token first count : Nat) :
    (suffix.keys token first count).Nodup := by
  cases suffix <;> unfold Suffix.keys <;> dsimp only <;> (try split) <;> simp

theorem Suffix.keys_token (suffix : Suffix) (i count : Nat) :
    ∀ key ∈ suffix.keys i i count, key.1 = i ∧ key.2 ≠ .ruleBlock := by
  cases suffix <;> unfold Suffix.keys <;> dsimp only <;> (try split) <;> simp

theorem nodup_choiceKeys (token : Nat) (site : DecisionSite) (count : Nat) :
    (choiceKeys token site count).Nodup := by
  unfold choiceKeys
  split <;> simp

theorem eq_of_mem_choiceKeys {token count : Nat} {site : DecisionSite}
    {key : Nat × DecisionSite} (h : key ∈ choiceKeys token site count) : key = (token, site) := by
  unfold choiceKeys at h
  split at h
  · cases h
  · exact List.mem_singleton.mp h

/-! ## Keys of what is spelled -/

/-- The keys of an element that is read from the token `i` on, and of what is inside it. -/
structure KeysSpelled (i hi : Nat) (e : Element) : Prop where
  all : KeysWithin i hi e.keys
  inner : e.isUnsuffixed = true → KeysWithin (i + 1) hi e.innerKeys

theorem KeysSpelled.leaf {i hi : Nat} {e : Element} (hkeys : e.keys = [])
    (hinner : e.innerKeys = []) : KeysSpelled i hi e :=
  ⟨by rw [hkeys]; exact .nil i hi, fun _ => by rw [hinner]; exact .nil (i + 1) hi⟩

mutual
theorem Element.Spelled.keys : ∀ (e : Element) {i : Nat} {ts : List TokenTree},
    e.Spelled i ts → KeysSpelled i (i + widths ts) e
  | .block alts options extent, i, ts, h => by
      rw [Element.Spelled] at h
      obtain ⟨rfl, rfl, opened, closed, body, rfl, halts⟩ := h
      have hinner : KeysWithin (i + 1) (i + widths [group .parenthesis opened closed body])
          (Alt.listKeys alts) :=
        (Alt.AllSpelled.keys alts halts).mono (Nat.le_refl _) (by simp; omega)
      refine ⟨?_, fun _ => hinner⟩
      rw [Element.keys]
      refine hinner.around (by simp) (nodup_choiceKeys ..) fun key hkey => ?_
      rw [eq_of_mem_choiceKeys hkey]
      exact ⟨rfl, nofun⟩
  | .suffixed suffix greedy inner extent, i, ts, h => by
      rw [Element.Spelled] at h
      obtain ⟨rfl, hunsuffixed, front, back, rfl, hinner, -⟩ := h
      have hstart : inner.extent.start = i := by
        rw [hinner.extent_eq (by cases inner <;> first | rfl | cases hunsuffixed)]
        rfl
      have hpos := widths_pos hinner.ne_nil
      have hkeys : KeysWithin (i + 1) (i + widths (front ++ back)) inner.innerKeys :=
        ((Element.Spelled.keys inner hinner).inner hunsuffixed).mono (Nat.le_refl _)
          (by rw [TokenTree.widths_append]; omega)
      refine ⟨?_, nofun⟩
      rw [Element.keys_suffixed, hstart]
      exact hkeys.around (by rw [TokenTree.widths_append]; omega) (suffix.nodup_keys ..)
        (suffix.keys_token i _)
  | .labeled isList label token inner extent, i, ts, h => by
      rw [Element.Spelled] at h
      obtain ⟨rfl, rfl, -, p, sign, rest, rfl, -, hinner⟩ := h
      have hkeys : KeysWithin (token + 1)
          (token + widths (leaf (.ident label) p :: (sign ++ rest))) inner.keys :=
        (Element.Spelled.keys inner hinner).all.mono (by omega) (by simp; omega)
      refine ⟨?_, fun _ => ?_⟩
      · exact hkeys.mono (Nat.le_succ _) (Nat.le_refl _)
      · exact hkeys
  | .ruleRef _, _, _, _ | .tokenRef _ _ _, _, _, _ | .quotation _, _, _, _
  | .range _ _ _, _, _, _ | .wildcard _ _, _, _, _ | .not _ _, _, _, _ | .set _ _, _, _, _
  | .action _, _, _, _ | .predicate _, _, _, _ | .command _ _ _, _, _, _
  | .epsilon _, _, _, _ => .leaf rfl rfl

theorem Element.ListSpelled.keys : ∀ (es : List Element) {i : Nat} {ts : List TokenTree},
    Element.ListSpelled i ts es → KeysWithin i (i + widths ts) (Element.listKeys es)
  | [], i, ts, _ => by
      rw [Element.listKeys]
      exact .nil i _
  | e :: es, i, ts, h => by
      rw [Element.ListSpelled] at h
      rw [Element.listKeys]
      obtain ⟨front, back, rfl, he, -, hes⟩ := h
      have hkeys := (Element.Spelled.keys e he).all
      rw [TokenTree.widths_append, ← Nat.add_assoc]
      exact hkeys.append (Element.ListSpelled.keys es hes) (by omega) (by omega)

theorem Alt.Spelled.keys : ∀ (a : Alt) {i : Nat} {ts : List TokenTree},
    a.Spelled i ts → KeysWithin i (i + widths ts) a.keys
  | ⟨elements, options, label, extent, info⟩, i, ts, h => by
      rw [Alt.Spelled] at h
      obtain ⟨-, front, body, back, rfl, -, -, -, hbody⟩ := h
      rw [Alt.keys]
      rcases hbody with ⟨-, rfl⟩ | ⟨-, -, hbody⟩
      · exact .nil i _
      · refine (Element.ListSpelled.keys elements hbody).mono (by omega) ?_
        rw [TokenTree.widths_append, TokenTree.widths_append]
        omega

theorem Alt.AllSpelled.keys : ∀ (as : List Alt) {i : Nat} {ts : List TokenTree},
    Alt.AllSpelled i ts as → KeysWithin i (i + widths ts) (Alt.listKeys as)
  | [], i, ts, h => by
      rw [Alt.AllSpelled] at h
      exact h.elim
  | a :: as, i, ts, h => by
      rw [Alt.AllSpelled] at h
      obtain ⟨front, back, rfl, ha, hrest⟩ := h
      have hkeys := Alt.Spelled.keys a ha
      rw [Alt.listKeys]
      rcases hrest with ⟨rfl, rfl⟩ | ⟨joint, p, rest, rfl, -, has⟩
      · rw [Alt.listKeys, List.append_nil, List.append_nil]
        exact hkeys
      · refine hkeys.append ((Alt.AllSpelled.keys as has).mono (Nat.le_succ _) ?_) (by omega) ?_
        · rw [TokenTree.widths_append, TokenTree.widths_cons, TokenTree.width_leaf]
          omega
        · rw [TokenTree.widths_append]
          omega
end

/-- The keys of a rule are different, and those of its tokens. -/
theorem RuleDef.Spelled.keys {rule : RuleDef} {i : Nat} {ts : List TokenTree}
    (h : rule.Spelled i ts) :
    rule.keys.Nodup ∧ ∀ key ∈ rule.keys, i ≤ key.1 ∧ key.1 < i + widths ts := by
  obtain ⟨-, -, mark, heading, body, p, joint, joint', q, r, rfl, -, -, halts, hhead, -⟩ := h
  have hkeys : KeysWithin i (i + widths (mark ++ leaf (.ident rule.name) p ::
      (heading ++ leaf (.punct ':' joint) q :: (body ++ [leaf (.punct ';' joint') r]))))
      (Alt.listKeys rule.alts) :=
    (Alt.AllSpelled.keys rule.alts halts).mono (by omega) (by simp; omega)
  have hstart : i ≤ rule.block.extent.start ∧ rule.block.extent.start ≤
      i + widths mark + 1 + widths heading + 1 + widths body := by
    cases hrule : rule.alts with
    | nil =>
        rw [hrule, Alt.AllSpelled] at halts
        exact halts.elim
    | cons a as =>
        rw [hrule, Alt.AllSpelled] at halts
        obtain ⟨front, back, rfl, ha, -⟩ := halts
        rw [hhead a (by rw [hrule]; rfl), TokenTree.widths_append]
        have := ha.bounds
        omega
  unfold RuleDef.keys
  refine ⟨List.nodup_append.mpr ⟨hkeys.nodup, nodup_choiceKeys .., ?_⟩, fun key hkey => ?_⟩
  · rintro key hkey _ hkey' rfl
    rw [eq_of_mem_choiceKeys hkey'] at hkey
    exact hkeys.site _ hkey rfl
  · rcases List.mem_append.mp hkey with hkey | hkey
    · exact hkeys.within key hkey
    · rw [eq_of_mem_choiceKeys hkey]
      simp
      omega

/-! ## What every element that is spelled has -/

mutual
/-- Whether all blocks in an element have alternatives, all sets hold single symbols, and tokens
and rules have names of their kind. -/
def Element.isFormed : Element → Bool
  | .block alts _ _ => !alts.isEmpty && Alt.listFormed alts
  | .ruleRef r => !isTokenName r.name
  | .tokenRef name _ _ => isTokenName name
  | .suffixed _ _ inner _ => inner.isFormed
  | .labeled _ _ _ inner _ => inner.isFormed
  | .not operand _ => operand.isFormed
  | .set elements _ => elements.all Cursor.isNegatable
  | _ => true

def Element.listFormed : List Element → Bool
  | [] => true
  | e :: es => e.isFormed && Element.listFormed es

def Alt.isFormed : Alt → Bool
  | ⟨elements, _, _, _, _⟩ => Element.listFormed elements

def Alt.listFormed : List Alt → Bool
  | [] => true
  | a :: as => a.isFormed && Alt.listFormed as
end

theorem Alt.AllSpelled.isEmpty {as : List Alt} {i : Nat} {ts : List TokenTree}
    (h : Alt.AllSpelled i ts as) : as.isEmpty = false := by
  cases as with
  | nil =>
      rw [Alt.AllSpelled] at h
      exact h.elim
  | cons => rfl

theorem Element.SetSpelled.all {es : List Element} {i : Nat} {ts : List TokenTree}
    (h : Element.SetSpelled i ts es) : es.all Cursor.isNegatable = true := by
  induction es generalizing i ts with
  | nil => rfl
  | cons e es ih =>
      rw [Element.SetSpelled] at h
      obtain ⟨he, front, back, -, -, hrest⟩ := h
      rw [List.all_cons, Bool.and_eq_true]
      refine ⟨he, ?_⟩
      rcases hrest with ⟨rfl, -⟩ | ⟨joint, p, rest, -, hes⟩
      · rfl
      · exact ih hes

mutual
theorem Element.Spelled.isFormed : ∀ (e : Element) {i : Nat} {ts : List TokenTree},
    e.Spelled i ts → e.isFormed = true
  | .block alts options extent, i, ts, h => by
      rw [Element.Spelled] at h
      obtain ⟨-, -, opened, closed, body, -, halts⟩ := h
      rw [Element.isFormed, halts.isEmpty, Alt.AllSpelled.isFormed alts halts]
      rfl
  | .suffixed suffix greedy inner extent, i, ts, h => by
      rw [Element.Spelled] at h
      obtain ⟨-, -, front, back, -, hinner, -⟩ := h
      exact Element.Spelled.isFormed inner hinner
  | .labeled isList label token inner extent, i, ts, h => by
      rw [Element.Spelled] at h
      obtain ⟨-, -, -, p, sign, rest, -, -, hinner⟩ := h
      exact Element.Spelled.isFormed inner hinner
  | .not operand extent, i, ts, h => by
      rw [Element.Spelled] at h
      obtain ⟨-, -, joint, p, rest, -, hoperand⟩ := h
      exact Element.Spelled.isFormed operand hoperand
  | .set elements extent, i, ts, h => by
      rw [Element.Spelled] at h
      obtain ⟨-, opened, closed, body, -, hset⟩ := h
      exact hset.all
  | .ruleRef r, i, ts, h => by
      rw [Element.Spelled] at h
      rw [Element.isFormed, h.1]
      rfl
  | .tokenRef name options extent, i, ts, h => by
      rw [Element.Spelled] at h
      exact h.1
  | .quotation _, _, _, _ | .range _ _ _, _, _, _ | .wildcard _ _, _, _, _ | .action _, _, _, _
  | .predicate _, _, _, _ | .command _ _ _, _, _, _ | .epsilon _, _, _, _ => rfl

theorem Element.ListSpelled.isFormed : ∀ (es : List Element) {i : Nat} {ts : List TokenTree},
    Element.ListSpelled i ts es → Element.listFormed es = true
  | [], i, ts, _ => rfl
  | e :: es, i, ts, h => by
      rw [Element.ListSpelled] at h
      rw [Element.listFormed, Bool.and_eq_true]
      obtain ⟨front, back, -, he, -, hes⟩ := h
      exact ⟨Element.Spelled.isFormed e he, Element.ListSpelled.isFormed es hes⟩

theorem Alt.Spelled.isFormed : ∀ (a : Alt) {i : Nat} {ts : List TokenTree},
    a.Spelled i ts → a.isFormed = true
  | ⟨elements, options, label, extent, info⟩, i, ts, h => by
      rw [Alt.Spelled] at h
      obtain ⟨-, front, body, back, -, -, -, -, hbody⟩ := h
      rcases hbody with ⟨-, rfl⟩ | ⟨-, -, hbody⟩
      · rfl
      · exact Element.ListSpelled.isFormed elements hbody

theorem Alt.AllSpelled.isFormed : ∀ (as : List Alt) {i : Nat} {ts : List TokenTree},
    Alt.AllSpelled i ts as → Alt.listFormed as = true
  | [], i, ts, _ => rfl
  | a :: as, i, ts, h => by
      rw [Alt.AllSpelled] at h
      obtain ⟨front, back, -, ha, hrest⟩ := h
      rw [Alt.listFormed, Bool.and_eq_true]
      refine ⟨Alt.Spelled.isFormed a ha, ?_⟩
      rcases hrest with ⟨rfl, -⟩ | ⟨joint, p, rest, -, -, has⟩
      · rfl
      · exact Alt.AllSpelled.isFormed as has
end

def RuleDef.isFormed (rule : RuleDef) : Bool :=
  !rule.alts.isEmpty && Alt.listFormed rule.alts

theorem RuleDef.Spelled.isFormed {rule : RuleDef} {i : Nat} {ts : List TokenTree}
    (h : rule.Spelled i ts) : rule.isFormed = true := by
  obtain ⟨-, -, mark, heading, body, p, joint, joint', q, r, -, -, -, halts, -⟩ := h
  rw [RuleDef.isFormed, halts.isEmpty, Alt.AllSpelled.isFormed rule.alts halts]
  rfl

theorem RulesSpelled.isFormed {rules : List RuleDef} {i : Nat} {ts : List TokenTree}
    (h : RulesSpelled i ts rules) : ∀ rule ∈ rules, rule.isFormed = true := by
  induction rules generalizing i ts with
  | nil => exact nofun
  | cons rule rules ih =>
      obtain ⟨front, back, -, hrule, hrules⟩ := h
      exact List.forall_mem_cons.mpr ⟨hrule.isFormed, ih hrules⟩

/-- The rules of a text are formed. -/
theorem GrammarDef.isFormed_of_parse {file source : String} {g : GrammarDef}
    (h : GrammarDef.parse file source = .ok g) : ∀ rule ∈ g.rules, rule.isFormed = true := by
  unfold GrammarDef.parse at h
  obtain ⟨trees, -, h⟩ := ok_of_bind h
  obtain ⟨-, _, _, -, hspelled⟩ := Cursor.takes_grammar h
  exact hspelled.isFormed

theorem RuleDef.isFormed_of_parse {name source : String} {table tokens : TokenTable}
    {rule : RuleDef} (h : RuleDef.parse name source table = (.ok rule, tokens)) :
    rule.isFormed = true := by
  unfold RuleDef.parse at h
  split at h
  · cases h
  · dsimp only at h
    split at h
    · cases h
    · next rule' behind _ hread =>
      split at h
      · cases h
      · obtain rfl := Except.ok.inj (Prod.mk.inj h).1
        obtain ⟨_, -, hspelled⟩ := Cursor.takes_rule hread
        exact hspelled.isFormed

end GrammarCompiler
