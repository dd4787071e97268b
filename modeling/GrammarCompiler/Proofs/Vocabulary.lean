import GrammarCompiler.Text.Decimal
import GrammarCompiler.Vocabulary
import Mathlib.Data.List.Basic

/-!
# Types of a vocabulary

No token gets a type before it is next in turn. So all types of a vocabulary lie below the type
that comes next. The type that comes next is counted, so types are numbers of 32 bits as long as
the count is.
-/

namespace GrammarCompiler

open Text (maxInt32)

namespace Vocabulary

/-- All types in use are below the next one. -/
structure Below (vocab : Vocabulary) : Prop where
  pos : 0 ≤ vocab.nextType
  names : ∀ entry ∈ vocab.names, entry.2 < vocab.nextType
  literals : ∀ entry ∈ vocab.literals, entry.2 < vocab.nextType

theorem nextType_nonneg (vocab : Vocabulary) : 0 ≤ vocab.nextType :=
  Int.natCast_nonneg _

theorem mem_of_lookup_eq_some {α β : Type} [BEq α] {key : α} {value : β} {l : List (α × β)}
    (h : l.lookup key = some value) : ∃ key', (key', value) ∈ l := by
  induction l with
  | nil => cases h
  | cons entry l ih =>
      obtain ⟨k, v⟩ := entry
      rw [List.lookup_cons] at h
      split at h
      · rw [Option.some.injEq] at h
        exact ⟨k, h ▸ List.mem_cons_self ..⟩
      · obtain ⟨key', hmem⟩ := ih h
        exact ⟨key', List.mem_cons_of_mem _ hmem⟩

theorem Below.type?_lt {vocab : Vocabulary} (h : vocab.Below) {name : String} {type : Int}
    (htype : vocab.type? name = some type) : type < vocab.nextType := by
  unfold type? at htype
  split at htype
  · rw [Option.some.injEq] at htype
    have := h.pos
    rw [← htype]
    exact Int.lt_of_lt_of_le (by decide) this
  · obtain ⟨key, hmem⟩ := mem_of_lookup_eq_some htype
    exact h.names _ hmem

theorem Below.literalType?_lt {vocab : Vocabulary} (h : vocab.Below) {value : String}
    {type : Int} (htype : vocab.literalType? value = some type) : type < vocab.nextType := by
  obtain ⟨key, hmem⟩ := mem_of_lookup_eq_some htype
  exact h.literals _ hmem

theorem below_empty : empty.Below :=
  ⟨nextType_nonneg _, fun _ h => absurd h List.not_mem_nil,
    fun _ h => absurd h List.not_mem_nil⟩

theorem nextType_push (vocab : Vocabulary) (display : String) (names literals : List (String × Int)) :
    (Vocabulary.mk (vocab.displays.push display) names literals).nextType =
      vocab.nextType + 1 := by
  unfold nextType
  rw [Array.size_push]
  exact Int.natCast_add _ _

theorem Below.define {vocab : Vocabulary} (h : vocab.Below) (name : String) :
    (vocab.define name).Below := by
  unfold Vocabulary.define
  split
  · exact h
  · have hnext := nextType_push vocab name ((name, vocab.nextType) :: vocab.names) vocab.literals
    refine ⟨nextType_nonneg _, fun entry hentry => ?_, fun entry hentry => ?_⟩
    · rw [hnext]
      rcases List.mem_cons.mp hentry with rfl | hentry
      · exact Int.lt_succ _
      · exact Int.lt_trans (h.names entry hentry) (Int.lt_succ _)
    · rw [hnext]
      exact Int.lt_trans (h.literals entry hentry) (Int.lt_succ _)

theorem Below.defineLiteral {vocab : Vocabulary} (h : vocab.Below) (literal : Quotation)
    (alias? : Option String) : (vocab.defineLiteral literal alias?).Below := by
  unfold Vocabulary.defineLiteral
  split
  · exact h
  · split
    · next type htype =>
      obtain ⟨name, -, hname⟩ := Option.bind_eq_some_iff.mp htype
      refine ⟨h.pos, h.names, fun entry hentry => ?_⟩
      rcases List.mem_cons.mp hentry with rfl | hentry
      · exact h.type?_lt hname
      · exact h.literals entry hentry
    · have hnext := nextType_push vocab literal.text vocab.names
        ((literal.value, vocab.nextType) :: vocab.literals)
      refine ⟨nextType_nonneg _, fun entry hentry => ?_, fun entry hentry => ?_⟩
      · rw [hnext]
        exact Int.lt_trans (h.names entry hentry) (Int.lt_succ _)
      · rw [hnext]
        rcases List.mem_cons.mp hentry with rfl | hentry
        · exact Int.lt_succ _
        · exact Int.lt_trans (h.literals entry hentry) (Int.lt_succ _)

theorem Below.foldl {α : Type} {f : Vocabulary → α → Vocabulary}
    (hf : ∀ vocab a, vocab.Below → (f vocab a).Below) (l : List α) {vocab : Vocabulary}
    (h : vocab.Below) : (l.foldl f vocab).Below := by
  induction l generalizing vocab with
  | nil => exact h
  | cons a l ih => exact ih (hf vocab a h)

theorem Below.noteElements (grammar : Grammar) (elements : List Element)
    {state : Vocabulary × List Issue} (h : state.1.Below) :
    (elements.foldl (noteElement grammar) state).1.Below := by
  induction elements generalizing state with
  | nil => exact h
  | cons e es ih =>
      refine ih ?_
      unfold noteElement
      split
      · split
        · exact h
        · exact h.define _
      · exact h

/-- All types of the vocabulary of a grammar are below the next one. -/
theorem below_ofGrammar (grammar : Grammar) : (ofGrammar grammar).1.Below := by
  have hdefine : ∀ vocab (name : String), Below vocab → (vocab.define name).Below :=
    fun _ name h => h.define name
  have h := Below.foldl hdefine (grammar.tokenRules.map (·.name))
    (Below.foldl hdefine grammar.source.tokenDefs below_empty)
  unfold ofGrammar
  simp only
  split
  · exact h
  · have hnoted := @Below.noteElements grammar (parserElements grammar) (_, []) h
    exact Below.foldl (fun _ literal h => h.defineLiteral literal _) _ hnoted

/-! ## Numbers of 32 bits -/

/-- The types of a vocabulary are numbers of 32 bits. -/
structure Fits (vocab : Vocabulary) : Prop where
  names : ∀ name type, vocab.type? name = some type → type ≤ maxInt32
  literals : ∀ value type, vocab.literalType? value = some type → type ≤ maxInt32

/-- What the numbers of a vocabulary fit, its symbols fit. -/
theorem Below.fits {vocabulary : Vocabulary} (h : vocabulary.Below)
    (hsize : vocabulary.nextType ≤ maxInt32) :
    vocabulary.Fits ∧ vocabulary.maxType < maxInt32 := by
  refine ⟨⟨fun name type htype => ?_, fun value type htype => ?_⟩, ?_⟩
  · have := h.type?_lt htype
    omega
  · have := h.literalType?_lt htype
    omega
  · unfold maxType
    omega

end Vocabulary

end GrammarCompiler
