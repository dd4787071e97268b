import GrammarCompiler.Issue.Basic

/-!
# Messages

A wording consists of characters and of places for arguments (`Wording.parts`). To word an issue is
to fill the places, and what stands in an argument is not looked at (`Wording.fill`).

A message is made in another way, by three replacements one after another in the whole text so far.
In a wording a place is found by its first character, which occurs nowhere else in it, and no place
touches another one, so a replacement acts on each part for itself (`substitute_fill`). The parts
that are arguments already are no exception: an argument that holds a placeholder still to be
replaced is changed. Otherwise a message is the wording filled with the arguments
(`Issue.message_exact`).
-/

namespace GrammarCompiler

/-! ## Substitution -/

section Substitute

variable {pattern replacement xs ys text : List Char}

/-- No occurrence ends behind a text if what follows begins with a character that the pattern does
not have. -/
theorem isPrefixOf_append (h : ∀ c, ys.head? = some c → c ∉ pattern) :
    pattern.isPrefixOf (xs ++ ys) = pattern.isPrefixOf xs := by
  induction pattern generalizing xs with
  | nil => rfl
  | cons p pattern ih =>
      cases xs with
      | nil =>
          cases ys with
          | nil => rfl
          | cons y ys =>
              have hne : p ≠ y := fun heq => h y rfl (heq ▸ List.mem_cons_self ..)
              simp [List.isPrefixOf, hne]
      | cons x xs =>
          rw [List.cons_append, List.isPrefixOf, List.isPrefixOf,
            ih fun c hc hmem => h c hc (List.mem_cons_of_mem _ hmem)]

theorem substitute_append (h : ∀ c, ys.head? = some c → c ∉ pattern) {skip : Nat}
    (hskip : skip ≤ xs.length) :
    substitute pattern replacement skip (xs ++ ys) =
      substitute pattern replacement skip xs ++ substitute pattern replacement 0 ys := by
  induction xs generalizing skip with
  | nil =>
      obtain rfl := Nat.le_zero.mp hskip
      rfl
  | cons x xs ih =>
      cases skip with
      | succ skip => exact ih (Nat.le_of_succ_le_succ hskip)
      | zero =>
          have hsame : pattern.isPrefixOf (x :: xs ++ ys) = pattern.isPrefixOf (x :: xs) :=
            isPrefixOf_append h
          rw [List.cons_append] at hsame
          rw [List.cons_append, substitute, substitute, hsame]
          split
          · next hmatch =>
            -- the occurrence lies in the first text
            have hlength := (List.isPrefixOf_iff_prefix.mp hmatch).length_le
            rw [List.length_cons] at hlength
            rw [ih (by omega), List.append_assoc]
          · rw [ih (Nat.zero_le _), List.cons_append]

/-- A text without the pattern stays as it is. -/
theorem substitute_of_not_infix (h : ¬pattern <:+: text) :
    substitute pattern replacement 0 text = text := by
  induction text with
  | nil => rfl
  | cons c cs ih =>
      have hno : ¬pattern.isPrefixOf (c :: cs) = true := fun hmatch =>
        h (List.isPrefixOf_iff_prefix.mp hmatch).isInfix
      rw [substitute, if_neg hno, ih fun hin => h (hin.trans (List.suffix_cons c cs).isInfix)]

theorem substitute_skip (pattern replacement text : List Char) :
    substitute pattern replacement text.length text = [] := by
  induction text with
  | nil => rfl
  | cons c cs ih => exact ih

theorem substitute_self (h : pattern ≠ []) :
    substitute pattern replacement 0 pattern = replacement := by
  obtain ⟨c, cs, rfl⟩ := List.exists_cons_of_ne_nil h
  rw [substitute, if_pos (List.isPrefixOf_iff_prefix.mpr (List.prefix_refl _)), List.length_cons,
    Nat.add_sub_cancel, substitute_skip, List.append_nil]

end Substitute

theorem toList_replaceAll (text pattern replacement : String) :
    (replaceAll text pattern replacement).toList =
      substitute pattern.toList replacement.toList 0 text.toList := by
  rw [replaceAll, String.toList_ofList]

theorem replaceAll_of_not_infix {text pattern : String} (h : ¬pattern.toList <:+: text.toList)
    (replacement : String) : replaceAll text pattern replacement = text := by
  rw [replaceAll, substitute_of_not_infix h, String.ofList_toList]

theorem replaceAll_self {pattern : String} (h : pattern.toList ≠ []) (replacement : String) :
    replaceAll pattern pattern replacement = replacement := by
  rw [replaceAll, substitute_self h, String.ofList_toList]

/-! ## Wordings -/

namespace Wording

/-- A part of a wording: a character or the place of an argument. -/
inductive Part where
  | char (c : Char)
  | argument (n : Fin 3)
deriving Repr, DecidableEq

/-- How the place of an argument is written. -/
def placeholder : Fin 3 → String
  | 0 => "<arg>"
  | 1 => "<arg2>"
  | 2 => "<arg3>"

/-- The argument whose place begins a text. -/
def argumentAt? (text : List Char) : Option (Fin 3) :=
  (List.finRange 3).find? fun n => (placeholder n).toList.isPrefixOf text

/-- The parts of a wording; the first `skip` characters belong to a place already read. -/
def parts : Nat → List Char → List Part
  | _, [] => []
  | skip + 1, _ :: cs => parts skip cs
  | 0, c :: cs =>
    match argumentAt? (c :: cs) with
    | some n => .argument n :: parts ((placeholder n).toList.length - 1) cs
    | none => .char c :: parts 0 cs

/-- A wording with its places filled. -/
def fill (args : Fin 3 → String) (parts : List Part) : List Char :=
  parts.flatMap fun
    | .char c => [c]
    | .argument n => (args n).toList

section Fill

variable (args : Fin 3 → String) {n : Fin 3} {ps : List Part}

theorem fill_char (c : Char) (ps : List Part) : fill args (.char c :: ps) = c :: fill args ps := rfl

theorem fill_argument (n : Fin 3) (ps : List Part) :
    fill args (.argument n :: ps) = (args n).toList ++ fill args ps := rfl

theorem fill_congr {args args' : Fin 3 → String}
    (h : ∀ n, .argument n ∈ ps → args n = args' n) : fill args ps = fill args' ps := by
  induction ps with
  | nil => rfl
  | cons part ps ih =>
      have hrest := ih fun n hn => h n (List.mem_cons_of_mem _ hn)
      cases part with
      | char c => rw [fill_char, fill_char, hrest]
      | argument n =>
          rw [fill_argument, fill_argument, hrest, h n (List.mem_cons_self ..)]

end Fill

/-! ## Places -/

/-- The characters that places are written with. -/
def marks : List Char :=
  "<arg23>".toList

theorem placeholder_ne_nil (n : Fin 3) : (placeholder n).toList ≠ [] := by
  revert n
  decide

theorem placeholder_eq_cons (n : Fin 3) :
    (placeholder n).toList = '<' :: (placeholder n).toList.tail := by
  revert n
  decide

theorem mem_marks (n : Fin 3) : ∀ c ∈ (placeholder n).toList, c ∈ marks := by
  have hall : ((placeholder n).toList.all fun c => marks.contains c) = true := by
    revert n
    decide
  exact fun c hc => List.contains_iff_mem.mp (List.all_eq_true.mp hall c hc)

/-- No placeholder is a part of another one. -/
theorem replaceAll_placeholder {m n : Fin 3} (h : m ≠ n) (replacement : String) :
    replaceAll (placeholder n) (placeholder m) replacement = placeholder n := by
  have hno : ∀ m n : Fin 3, m ≠ n → ¬(placeholder m).toList <:+: (placeholder n).toList := by
    decide +kernel
  exact replaceAll_of_not_infix (hno m n h) replacement

theorem argumentAt?_eq_some {text : List Char} {n : Fin 3} (h : argumentAt? text = some n) :
    (placeholder n).toList.isPrefixOf text = true := by
  unfold argumentAt? at h
  exact List.find?_some (p := fun n => (placeholder n).toList.isPrefixOf text) h

/-- Nothing is lost in parts: filled with the placeholders they are the text. -/
theorem fill_parts (skip : Nat) (text : List Char) :
    fill placeholder (parts skip text) = text.drop skip := by
  fun_induction parts skip text with
  | case1 => exact List.drop_nil.symm
  | case2 skip c cs ih => exact ih
  | case3 c cs n hfound ih =>
      have hmatch := argumentAt?_eq_some hfound
      have hlength : (placeholder n).toList.length = (placeholder n).toList.length - 1 + 1 :=
        (Nat.succ_pred_eq_of_pos (List.length_pos_iff.mpr (placeholder_ne_nil n))).symm
      have hsplit := List.prefix_iff_eq_append.mp (List.isPrefixOf_iff_prefix.mp hmatch)
      rw [hlength, List.drop_succ_cons] at hsplit
      rw [fill_argument, ih]
      exact hsplit
  | case4 c cs hnone ih =>
      rw [fill_char, ih]
      rfl

/-- Places are found by their first character, and what follows a place is no part of one. -/
def spaced : List Part → Bool
  | [] => true
  | .char c :: ps => c != '<' && spaced ps
  | .argument _ :: ps =>
    spaced ps && match ps with
      | [] => true
      | .char c :: _ => !marks.contains c
      | .argument _ :: _ => false

theorem spaced_behind {n : Fin 3} {ps : List Part} (h : spaced (.argument n :: ps) = true)
    (args : Fin 3 → String) :
    spaced ps = true ∧ ∀ c, (fill args ps).head? = some c → c ∉ marks := by
  obtain ⟨hspaced, hnext⟩ := (Bool.and_eq_true _ _).mp h
  refine ⟨hspaced, fun c hc => ?_⟩
  cases ps with
  | nil => cases hc
  | cons part ps =>
      cases part with
      | char d =>
          obtain rfl := Option.some.inj hc
          simpa using hnext
      | argument m => cases hnext

/-- Replacing a placeholder acts on each part of a wording for itself. -/
theorem substitute_fill (m : Fin 3) (replacement : String) (args : Fin 3 → String)
    {ps : List Part} (h : spaced ps = true) :
    substitute (placeholder m).toList replacement.toList 0 (fill args ps) =
      fill (fun n => replaceAll (args n) (placeholder m) replacement) ps := by
  induction ps with
  | nil => rfl
  | cons part ps ih =>
      cases part with
      | char c =>
          obtain ⟨hc, hspaced⟩ := (Bool.and_eq_true _ _).mp h
          have hno : ¬(placeholder m).toList.isPrefixOf (c :: fill args ps) = true := by
            rw [placeholder_eq_cons, List.isPrefixOf, Bool.and_eq_true, beq_iff_eq]
            exact fun hmatch => absurd hmatch.1.symm (bne_iff_ne.mp hc)
          rw [fill_char, substitute, if_neg hno, ih hspaced, fill_char]
      | argument n =>
          obtain ⟨hspaced, hnext⟩ := spaced_behind h args
          rw [fill_argument, substitute_append (fun c hc hmem => hnext c hc (mem_marks m c hmem))
            (Nat.zero_le _), ih hspaced, fill_argument, toList_replaceAll]

end Wording

namespace IssueKind

open Wording

/-- The parts of the wording of a kind. -/
def parts (kind : IssueKind) : List Part :=
  Wording.parts 0 kind.template.toList

/-- The wording of a kind with its places filled, without the white space at its end. -/
def wording (kind : IssueKind) (args : Fin 3 → String) : String :=
  Text.trimEnd (String.ofList (fill args kind.parts))

theorem spaced_parts (kind : IssueKind) : spaced kind.parts = true := by
  cases kind <;> decide +kernel

end IssueKind

namespace Issue

open Wording

/-- The arguments as they stand in a message. When one of them is put in, the places of those
before it are still to be replaced, and whatever in it is written like such a place is replaced with
them. -/
def shown (issue : Issue) : Fin 3 → String
  | 0 => issue.arg 0
  | 1 => replaceAll (issue.arg 1) (placeholder 0) (issue.arg 0)
  | 2 =>
    replaceAll (replaceAll (issue.arg 2) (placeholder 1) (issue.arg 1)) (placeholder 0)
      (issue.arg 0)

/-- What the replacements make of the place of an argument. -/
theorem replaceAll_places (issue : Issue) : ∀ n,
    replaceAll (replaceAll (replaceAll (placeholder n) (placeholder 2) (issue.arg 2))
      (placeholder 1) (issue.arg 1)) (placeholder 0) (issue.arg 0) = issue.shown n
  | 0 => by
      rw [replaceAll_placeholder (by decide), replaceAll_placeholder (by decide),
        replaceAll_self (placeholder_ne_nil 0), shown]
  | 1 => by
      rw [replaceAll_placeholder (by decide), replaceAll_self (placeholder_ne_nil 1), shown]
  | 2 => by rw [replaceAll_self (placeholder_ne_nil 2), shown]

theorem message_eq (issue : Issue) : issue.message = issue.kind.wording issue.shown := by
  have hspaced := issue.kind.spaced_parts
  have htemplate : fill placeholder issue.kind.parts = issue.kind.template.toList := fill_parts 0 _
  have hmessage : issue.message = Text.trimEnd (replaceAll (replaceAll (replaceAll
      issue.kind.template (placeholder 2) (issue.arg 2)) (placeholder 1) (issue.arg 1))
      (placeholder 0) (issue.arg 0)) := rfl
  rw [hmessage, replaceAll, toList_replaceAll, toList_replaceAll, ← htemplate,
    substitute_fill 2 _ _ hspaced, substitute_fill 1 _ _ hspaced, substitute_fill 0 _ _ hspaced,
    funext issue.replaceAll_places, IssueKind.wording]

/-- An argument that holds no place of one before it is shown as it is. -/
theorem shown_eq (issue : Issue) : ∀ n : Fin 3,
    (∀ m, m < n → ¬(placeholder m).toList <:+: (issue.arg n).toList) → issue.shown n = issue.arg n
  | 0, _ => rfl
  | 1, h => by
      have hfirst : ¬(placeholder 0).toList <:+: (issue.arg 1).toList := h 0 (by decide)
      rw [shown, replaceAll_of_not_infix hfirst]
      rfl
  | 2, h => by
      have hfirst : ¬(placeholder 0).toList <:+: (issue.arg 2).toList := h 0 (by decide)
      have hsecond : ¬(placeholder 1).toList <:+: (issue.arg 2).toList := h 1 (by decide)
      rw [shown, replaceAll_of_not_infix hsecond, replaceAll_of_not_infix hfirst]
      rfl

/-- A message is the wording of its kind filled with the arguments, where an argument that the
wording asks for is shown as it is unless it holds the place of one before it. -/
theorem message_exact (issue : Issue) :
    issue.message = issue.kind.wording issue.shown ∧
      ((∀ m n : Fin 3, m < n → .argument n ∈ issue.kind.parts →
          ¬(placeholder m).toList <:+: (issue.arg n).toList) →
        issue.message = issue.kind.wording fun n => issue.arg n) := by
  refine ⟨issue.message_eq, fun h => ?_⟩
  have hsame : fill issue.shown issue.kind.parts = fill (fun n => issue.arg n) issue.kind.parts :=
    fill_congr fun n hn => issue.shown_eq n fun m hm => h m n hm hn
  rw [message_eq, IssueKind.wording, IssueKind.wording, hsame]

/-- The places of later arguments are left as they are, and so is the beginning of one. -/
theorem message_exact_later :
    let issue : Issue := ⟨.altLabelRedef, none, none, ["<arg3>", "<arg2>", "<arg"]⟩
    (∀ m n : Fin 3, m < n → .argument n ∈ issue.kind.parts →
      ¬(placeholder m).toList <:+: (issue.arg n).toList) ∧
    issue.message = (issue.kind.wording fun n => issue.arg n) ∧
    issue.message = "rule alt label <arg3> redefined in rule <arg2>, originally in rule <arg" := by
  intro issue
  have hno : ∀ m n : Fin 3, m < n → ¬(placeholder m).toList <:+: (issue.arg n).toList := by
    decide +kernel
  have h : ∀ m n : Fin 3, m < n → .argument n ∈ issue.kind.parts →
      ¬(placeholder m).toList <:+: (issue.arg n).toList := fun m n hm _ => hno m n hm
  exact ⟨h, issue.message_exact.2 h, by decide +kernel⟩

/-- The value of an option is written like the place of its name, and the name stands for it. -/
theorem message_rescans :
    let issue : Issue := ⟨.illegalOptionValue, some "T.g", none, ["assoc", "<arg>"]⟩
    issue.message = "unsupported option value assoc=assoc" ∧
      (issue.kind.wording fun n => issue.arg n) = "unsupported option value assoc=<arg>" ∧
      issue.message ≠ issue.kind.wording fun n => issue.arg n := by
  decide +kernel

end Issue

end GrammarCompiler
