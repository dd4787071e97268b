import GrammarCompiler.Proofs.Vocabulary
import Mathlib.Data.List.Induction

/-!
# Which token has which type

A vocabulary is made by defining tokens one after another, and a token that is defined again keeps
its type. So what a vocabulary holds is told by three things: the names that were defined, the
literals that were defined behind them, and the types that literals share with names (`Holds`). The
names have the types from 1 on in the order in which they came first, and the literals that share no
type have the types behind them in the same way.
-/

namespace GrammarCompiler

/-! ## First occurrences -/

section FirstOccurrences

variable {α : Type} [BEq α] [LawfulBEq α]

/-- What is listed behind a list is new unless it was in the list. -/
theorem eraseDups_concat (l : List α) (a : α) :
    (l ++ [a]).eraseDups = if l.contains a then l.eraseDups else l.eraseDups ++ [a] := by
  rw [List.eraseDups_append]
  cases h : l.contains a with
  | true => simp [List.removeAll, List.contains_iff_mem.mp h]
  | false =>
      have hno : a ∉ l := fun hmem => by simp [hmem] at h
      simp [List.removeAll, hno, List.eraseDups_cons]

end FirstOccurrences

theorem getElem?_concat_iff {α : Type} {l : List α} {a b : α} {i : Nat} :
    (l ++ [a])[i]? = some b ↔ l[i]? = some b ∨ (i = l.length ∧ b = a) := by
  rw [List.getElem?_append]
  split
  · next h =>
    constructor
    · exact Or.inl
    · rintro (h' | ⟨rfl, -⟩)
      · exact h'
      · exact absurd h (Nat.lt_irrefl _)
  · next h =>
    rw [List.getElem?_singleton, List.getElem?_eq_none (Nat.le_of_not_lt h)]
    split
    · next hi =>
      have hlength : i = l.length := by omega
      simp [hlength, eq_comm]
    · next hi =>
      have hlength : i ≠ l.length := by omega
      simp [hlength]

/-- What is looked up once an entry has been added under a new key. -/
theorem lookup_cons_eq_some {l : List (String × Int)} {key name : String} {value type : Int}
    (hnew : l.lookup key = none) :
    ((key, value) :: l).lookup name = some type ↔
      l.lookup name = some type ∨ (name = key ∧ type = value) := by
  rw [List.lookup_cons]
  cases heq : name == key with
  | true =>
      obtain rfl := beq_iff_eq.mp heq
      simp [hnew, eq_comm]
  | false =>
      have hne : name ≠ key := fun h => by simp [h] at heq
      simp [hne]

namespace Vocabulary

/-! ## What a vocabulary holds -/

/-- The texts of the literals that have types of their own, each once. -/
def ownTexts (shared? : String → Option Int) (literals : List Quotation) : List String :=
  ((literals.map (·.value)).filter fun text => (shared? text).isNone).eraseDups

/-- How a text is written where it comes first. -/
def writing (literals : List Quotation) (text : String) : String :=
  ((literals.find? (·.value == text)).map (·.text)).getD ""

/-- The names of a list have the types from 1 on. Literals have the types that they share, or types of
their own behind those of the names. -/
structure Holds (vocab : Vocabulary) (names : List String) (shared? : String → Option Int)
    (literals : List Quotation) : Prop where
  displays : vocab.displays.toList =
    "<INVALID>" :: names ++ (ownTexts shared? literals).map (writing literals)
  ordinary : "EOF" ∉ names
  nameTypes : ∀ name type, vocab.names.lookup name = some type ↔
    ∃ i : Nat, names[i]? = some name ∧ type = i + 1
  literalTypes : ∀ text type, vocab.literalType? text = some type ↔
    (text ∈ literals.map (·.value) ∧ shared? text = some type) ∨
      ∃ i : Nat, (ownTexts shared? literals)[i]? = some text ∧ type = names.length + 1 + i

section Holds

variable {vocab : Vocabulary} {names : List String} {shared? : String → Option Int}
  {literals : List Quotation}

theorem holds_empty (shared? : String → Option Int) : empty.Holds [] shared? [] := by
  refine ⟨rfl, List.not_mem_nil, fun name type => ?_, fun text type => ?_⟩
  · simp [empty]
  · simp [empty, literalType?, ownTexts]

theorem Holds.nextType_eq (h : vocab.Holds names shared? literals) :
    vocab.nextType = names.length + 1 + (ownTexts shared? literals).length := by
  unfold nextType
  rw [← Array.length_toList, h.displays]
  simp only [List.length_append, List.length_cons, List.length_map]
  omega

theorem Holds.type?_eq_some (h : vocab.Holds names shared? literals) {name : String} {type : Int} :
    vocab.type? name = some type ↔
      (name = "EOF" ∧ type = Symbol.eof) ∨ ∃ i : Nat, names[i]? = some name ∧ type = i + 1 := by
  unfold type?
  split
  · next heof =>
    obtain rfl := beq_iff_eq.mp heof
    have hno : ¬∃ i : Nat, names[i]? = some "EOF" ∧ type = i + 1 :=
      fun ⟨i, hi, _⟩ => h.ordinary (List.mem_of_getElem? hi)
    simp only [hno, or_false, true_and]
    exact ⟨fun h => (Option.some.inj h).symm, fun h => h ▸ rfl⟩
  · next heof =>
    have hne : name ≠ "EOF" := fun heq => heof (beq_iff_eq.mpr heq)
    simp only [hne, false_and, false_or]
    exact h.nameTypes name type

theorem Holds.isSome_type? (h : vocab.Holds names shared? literals) (name : String) :
    (vocab.type? name).isSome = true ↔ name = "EOF" ∨ name ∈ names := by
  rw [Option.isSome_iff_exists]
  simp only [h.type?_eq_some]
  constructor
  · rintro ⟨type, ⟨rfl, -⟩ | ⟨i, hi, -⟩⟩
    · exact Or.inl rfl
    · exact Or.inr (List.mem_of_getElem? hi)
  · rintro (rfl | hmem)
    · exact ⟨_, Or.inl ⟨rfl, rfl⟩⟩
    · obtain ⟨i, hi⟩ := List.mem_iff_getElem?.mp hmem
      exact ⟨_, Or.inr ⟨i, hi, rfl⟩⟩

/-! ## Names -/

/-- Names that are defined, each where it comes first. The end of the input is no name of a token. -/
def distinctNames (names : List String) : List String :=
  (names.filter (· != "EOF")).eraseDups

theorem distinctNames_concat (names : List String) (name : String) :
    distinctNames (names ++ [name]) =
      if name = "EOF" ∨ name ∈ distinctNames names then distinctNames names
      else distinctNames names ++ [name] := by
  unfold distinctNames
  rw [List.filter_append, List.filter_singleton]
  by_cases heof : name = "EOF"
  · simp [heof]
  · have hbne : (name != "EOF") = true := bne_iff_ne.mpr heof
    rw [hbne, cond_true, eraseDups_concat]
    simp only [heof, false_or, List.mem_eraseDups, List.contains_iff_mem]

theorem Holds.define (h : vocab.Holds names shared? []) (name : String) :
    (vocab.define name).Holds (if name = "EOF" ∨ name ∈ names then names else names ++ [name])
      shared? [] := by
  unfold Vocabulary.define
  split
  · next hsome =>
    rw [if_pos ((h.isSome_type? name).mp hsome)]
    exact h
  · next hnew =>
    have hno := mt (h.isSome_type? name).mpr hnew
    rw [if_neg hno]
    obtain ⟨heof, hno⟩ := not_or.mp hno
    have hnext : vocab.nextType = names.length + 1 := by
      rw [h.nextType_eq]
      simp [ownTexts]
    refine ⟨?_, ?_, fun other type => ?_, fun text type => ?_⟩
    · rw [Array.toList_push, h.displays]
      simp [ownTexts]
    · simp [h.ordinary, Ne.symm heof]
    · have hnone : vocab.names.lookup name = none := by
        rw [type?, if_neg (fun h => heof (beq_iff_eq.mp h))] at hnew
        exact Option.not_isSome_iff_eq_none.mp hnew
      rw [lookup_cons_eq_some hnone, h.nameTypes, hnext]
      simp only [getElem?_concat_iff, or_and_right, exists_or]
      simp [and_comm]
    · refine (h.literalTypes text type).trans ?_
      simp [ownTexts]

/-- Names that are defined one after another. -/
theorem holds_defined (shared? : String → Option Int) (names : List String) :
    (names.foldl define empty).Holds (distinctNames names) shared? [] := by
  induction names using List.reverseRecOn with
  | nil => exact holds_empty shared?
  | append_singleton names name ih =>
      rw [List.foldl_append, List.foldl_cons, List.foldl_nil, distinctNames_concat]
      exact ih.define name

/-! ## Literals -/

theorem ownTexts_concat (shared? : String → Option Int) (literals : List Quotation)
    (literal : Quotation) :
    ownTexts shared? (literals ++ [literal]) =
      if (shared? literal.value).isSome ∨ literal.value ∈ literals.map (·.value) then
        ownTexts shared? literals
      else ownTexts shared? literals ++ [literal.value] := by
  unfold ownTexts
  rw [List.map_append, List.filter_append, List.map_singleton, List.filter_singleton]
  cases hshared : shared? literal.value with
  | some type => simp
  | none =>
      rw [Option.isNone_none, cond_true, eraseDups_concat]
      simp [hshared]

theorem writing_append {text : String} (h : text ∈ literals.map (·.value)) (more : List Quotation) :
    writing (literals ++ more) text = writing literals text := by
  obtain ⟨literal, hmem, rfl⟩ := List.mem_map.mp h
  have hsome : (literals.find? (·.value == literal.value)).isSome :=
    List.find?_isSome.mpr ⟨literal, hmem, beq_self_eq_true _⟩
  obtain ⟨first, hfirst⟩ := Option.isSome_iff_exists.mp hsome
  rw [writing, writing, List.find?_append, hfirst]
  rfl

theorem writing_concat {literal : Quotation} (h : literal.value ∉ literals.map (·.value)) :
    writing (literals ++ [literal]) literal.value = literal.text := by
  have hnone : literals.find? (·.value == literal.value) = none :=
    List.find?_eq_none.mpr fun other hother heq =>
      h (List.mem_map.mpr ⟨other, hother, beq_iff_eq.mp heq⟩)
  simp [writing, List.find?_append, hnone]

theorem mem_of_mem_ownTexts {text : String} (h : text ∈ ownTexts shared? literals) :
    text ∈ literals.map (·.value) ∧ shared? text = none := by
  obtain ⟨hmem, hnone⟩ := List.mem_filter.mp (List.mem_eraseDups.mp h)
  exact ⟨hmem, Option.isNone_iff_eq_none.mp hnone⟩

theorem mem_ownTexts {text : String} (h : text ∈ literals.map (·.value))
    (hshared : shared? text = none) : text ∈ ownTexts shared? literals :=
  List.mem_eraseDups.mpr (List.mem_filter.mpr ⟨h, by rw [hshared]; rfl⟩)

/-- What is written first stays first. -/
theorem map_writing_append (more : List Quotation) :
    (ownTexts shared? literals).map (writing (literals ++ more)) =
      (ownTexts shared? literals).map (writing literals) :=
  List.map_congr_left fun _ htext => writing_append (mem_of_mem_ownTexts htext).1 more

theorem Holds.isSome_literalType? (h : vocab.Holds names shared? literals) (text : String) :
    (vocab.literalType? text).isSome = true ↔ text ∈ literals.map (·.value) := by
  rw [Option.isSome_iff_exists]
  simp only [h.literalTypes]
  constructor
  · rintro ⟨type, ⟨hmem, -⟩ | ⟨i, hi, -⟩⟩
    · exact hmem
    · exact (mem_of_mem_ownTexts (List.mem_of_getElem? hi)).1
  · intro hmem
    cases hshared : shared? text with
    | some type => exact ⟨type, Or.inl ⟨hmem, rfl⟩⟩
    | none =>
        obtain ⟨i, hi⟩ := List.mem_iff_getElem?.mp (mem_ownTexts hmem hshared)
        exact ⟨_, Or.inr ⟨i, hi, rfl⟩⟩

theorem Holds.defineLiteral (h : vocab.Holds names shared? literals) (literal : Quotation)
    {alias? : Option String} (halias : alias?.bind vocab.type? = shared? literal.value) :
    (vocab.defineLiteral literal alias?).Holds names shared? (literals ++ [literal]) := by
  have hown := ownTexts_concat shared? literals literal
  unfold Vocabulary.defineLiteral
  split
  · next hmem =>
    rw [h.isSome_literalType?] at hmem
    rw [if_pos (Or.inr hmem)] at hown
    refine ⟨?_, h.ordinary, h.nameTypes, fun text type => ?_⟩
    · rw [h.displays, hown, map_writing_append]
    · rw [h.literalTypes, hown]
      refine or_congr (and_congr_left fun _ => ?_) Iff.rfl
      rw [List.map_append, List.mem_append, List.map_singleton, List.mem_singleton]
      exact ⟨Or.inl, fun hor => hor.elim id fun heq => heq ▸ hmem⟩
  · next hnew =>
    have hmem := mt (h.isSome_literalType? literal.value).mpr hnew
    have hnone : vocab.literals.lookup literal.value = none := Option.not_isSome_iff_eq_none.mp hnew
    rw [halias]
    cases hshared : shared? literal.value with
    | some shared =>
        rw [if_pos (Or.inl (by rw [hshared]; rfl))] at hown
        refine ⟨?_, h.ordinary, h.nameTypes, fun text type => ?_⟩
        · exact h.displays.trans (by rw [hown, map_writing_append])
        · rw [hown, literalType?, lookup_cons_eq_some hnone, ← literalType?, h.literalTypes,
            List.map_append, List.mem_append, List.map_singleton, List.mem_singleton]
          have hlast : text = literal.value ∧ shared? text = some type ↔
              text = literal.value ∧ type = shared :=
            and_congr_right fun heq => by rw [heq, hshared, Option.some.injEq, eq_comm]
          rw [or_and_right, hlast, or_right_comm]
    | none =>
        have hnext := h.nextType_eq
        rw [if_neg (by simp [hshared, hmem])] at hown
        refine ⟨?_, h.ordinary, h.nameTypes, fun text type => ?_⟩
        · rw [Array.toList_push, h.displays, hown, List.map_append, map_writing_append,
            List.map_singleton, writing_concat hmem]
          simp
        · rw [hown, literalType?, lookup_cons_eq_some hnone, ← literalType?, h.literalTypes,
            List.map_append, List.mem_append, List.map_singleton, List.mem_singleton, hnext]
          have hlast : ¬(text = literal.value ∧ shared? text = some type) := by
            rintro ⟨rfl, hsome⟩
            cases hshared.symm.trans hsome
          have hbehind : (∃ i : Nat, (ownTexts shared? literals ++ [literal.value])[i]? = some text ∧
              type = names.length + 1 + i) ↔
              (∃ i : Nat, (ownTexts shared? literals)[i]? = some text ∧
                type = names.length + 1 + i) ∨
              (text = literal.value ∧
                type = names.length + 1 + (ownTexts shared? literals).length) := by
            simp only [getElem?_concat_iff, or_and_right, exists_or]
            simp [and_comm]
          rw [hbehind, or_and_right, or_iff_left hlast, or_assoc]

/-- Literals that are defined one after another, where none of them changes what they share. -/
theorem Holds.defineLiterals (h : vocab.Holds names shared? []) (alias? : String → Option String)
    (hshared : ∀ text, shared? text = (alias? text).bind vocab.type?) (literals : List Quotation) :
    (literals.foldl (fun vocab literal => vocab.defineLiteral literal (alias? literal.value))
      vocab).Holds names shared? literals := by
  induction literals using List.reverseRecOn with
  | nil => exact h
  | append_singleton literals literal ih =>
      rw [List.foldl_append, List.foldl_cons, List.foldl_nil]
      refine ih.defineLiteral literal ?_
      rw [hshared]
      refine congrArg _ (funext fun name => ?_)
      refine Option.ext fun type => ?_
      rw [ih.type?_eq_some, h.type?_eq_some]

end Holds

end Vocabulary

end GrammarCompiler
