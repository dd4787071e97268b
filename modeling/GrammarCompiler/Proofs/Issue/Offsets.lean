import GrammarCompiler.Issue.Excerpt
import Mathlib.Data.List.TakeWhile
import Mathlib.Tactic.Choose

/-!
# Places as byte offsets

The place behind a part of a text has the number of line feeds in that part and the number of
characters behind the last one (`placeBehind`). To find the byte offset of a place, whole lines are
passed over and then characters of the line, so the place behind a part gives back its bytes
(`offsetFrom_placeBehind`).

A place need not be one of the text: a column may lie behind the end of its line, and there may be no
such line. Still the offset is the length of some part that the text begins with
(`exists_offsetFrom_eq`), so the text can be cut there. The first blank behind the cut, or the end of
the text, is another cut and not before the first one, so every place has a label that can be marked.
-/

namespace GrammarCompiler

open Text (Position isBlank)

namespace Excerpt

variable {source : String} {cs before behind line rest : List Char}

/-! ## Bytes -/

theorem foldl_utf8Size (bytes : Nat) (cs : List Char) :
    cs.foldl (fun bytes c => bytes + c.utf8Size) bytes = bytes + byteLength cs := by
  unfold byteLength
  induction cs generalizing bytes with
  | nil => rfl
  | cons c cs ih => rw [List.foldl_cons, List.foldl_cons, ih, ih (0 + c.utf8Size)]; omega

theorem byteLength_append (cs ds : List Char) :
    byteLength (cs ++ ds) = byteLength cs + byteLength ds := by
  unfold byteLength
  rw [List.foldl_append, foldl_utf8Size]
  rfl

theorem byteLength_ofList (cs : List Char) : byteLength cs = (String.ofList cs).utf8ByteSize := by
  induction cs with
  | nil => rfl
  | cons c cs ih =>
      have hc : byteLength [c] = (String.ofList [c]).utf8ByteSize := by
        rw [← String.singleton_eq_ofList, String.utf8ByteSize_singleton]
        exact Nat.zero_add _
      rw [← List.singleton_append, byteLength_append, String.ofList_append,
        String.utf8ByteSize_append, hc, ih]

theorem byteLength_toList (s : String) : byteLength s.toList = s.utf8ByteSize := by
  rw [byteLength_ofList, String.ofList_toList]

/-! ## Lines -/

theorem firstLine_append_behind (cs : List Char) : firstLine cs ++ behindFirstLine cs = cs := by
  induction cs with
  | nil => rfl
  | cons c cs ih =>
      rw [firstLine, behindFirstLine]
      split
      · rfl
      · rw [List.cons_append, ih]

theorem firstLine_append (h : '\n' ∉ line) (rest : List Char) :
    firstLine (line ++ rest) = line ++ firstLine rest := by
  induction line with
  | nil => rfl
  | cons c line ih =>
      obtain ⟨hc, hline⟩ := not_or.mp (mt List.mem_cons.mpr h)
      rw [List.cons_append, firstLine, if_neg (Ne.symm hc), ih hline, List.cons_append]

theorem behindFirstLine_append (h : '\n' ∉ line) (rest : List Char) :
    behindFirstLine (line ++ '\n' :: rest) = rest := by
  induction line with
  | nil => rfl
  | cons c line ih =>
      obtain ⟨hc, hline⟩ := not_or.mp (mt List.mem_cons.mpr h)
      rw [List.cons_append, behindFirstLine, if_neg (Ne.symm hc), ih hline]

/-- A line that is not the first one is looked for behind the first one. -/
theorem offsetFrom_next (line column : Nat) (cs : List Char) :
    offsetFrom (line + 2) column cs =
      byteLength (firstLine cs) + offsetFrom (line + 1) column (behindFirstLine cs) := by
  cases cs with
  | cons c cs => rfl
  | nil =>
      cases line with
      | zero =>
          rw [offsetFrom, behindFirstLine, offsetFrom, firstLine, List.take_nil]
          rfl
      | succ line => rfl

/-! ## The place behind a part of a text -/

/-- The place behind a text: line feeds are counted from 1, and characters behind the last one
from 0. -/
def placeBehind (before : List Char) : Position :=
  ⟨before.count '\n' + 1, (before.reverse.takeWhile (· != '\n')).length⟩

theorem placeBehind_of_notMem (h : '\n' ∉ before) : placeBehind before = ⟨1, before.length⟩ := by
  have hall : before.reverse.takeWhile (· != '\n') = before.reverse :=
    List.takeWhile_eq_self_iff.mpr fun c hc =>
      bne_iff_ne.mpr fun heq => h (heq ▸ List.mem_reverse.mp hc)
  rw [placeBehind, List.count_eq_zero.mpr h, hall, List.length_reverse]

/-- Behind a line feed the column does not depend on what was before it. -/
theorem placeBehind_append (h : '\n' ∉ line) (rest : List Char) :
    placeBehind (line ++ '\n' :: rest) =
      ⟨(placeBehind rest).line + 1, (placeBehind rest).column⟩ := by
  have hcount : (line ++ '\n' :: rest).count '\n' = rest.count '\n' + 1 := by
    rw [List.count_append, List.count_eq_zero.mpr h, List.count_cons_self, Nat.zero_add]
  have hcolumn : (line ++ '\n' :: rest).reverse.takeWhile (· != '\n') =
      rest.reverse.takeWhile (· != '\n') := by
    have hstop : ('\n' :: line.reverse).takeWhile (· != '\n') = [] := rfl
    rw [List.reverse_append, List.reverse_cons, List.append_assoc, List.singleton_append,
      List.takeWhile_append, hstop, List.append_nil]
    split
    · next hlength => exact ((List.takeWhile_prefix _).eq_of_length hlength).symm
    · rfl
  rw [placeBehind, hcount, hcolumn]
  rfl

/-- The offset of the place behind a part of a text is the number of bytes of the part. -/
theorem offsetFrom_placeBehind (before behind : List Char) :
    offsetFrom (placeBehind before).line (placeBehind before).column (before ++ behind) =
      byteLength before := by
  induction hlength : before.length using Nat.strongRecOn generalizing before with
  | ind length ih =>
    by_cases hfeed : '\n' ∈ before
    · obtain ⟨line, rest, rfl, hline⟩ := List.eq_append_cons_of_mem hfeed
      have hfirst : firstLine (line ++ '\n' :: rest ++ behind) = line ++ ['\n'] := by
        rw [List.append_assoc, firstLine_append hline]
        rfl
      have hbehind : behindFirstLine (line ++ '\n' :: rest ++ behind) = rest ++ behind := by
        rw [List.append_assoc, List.cons_append, behindFirstLine_append hline]
      have hrest := ih rest.length (by rw [← hlength, List.length_append, List.length_cons]; omega)
        rest rfl
      rw [placeBehind_append hline]
      show offsetFrom (rest.count '\n' + 2) (placeBehind rest).column _ = _
      rw [offsetFrom_next, hfirst, hbehind]
      calc byteLength (line ++ ['\n']) +
            offsetFrom (placeBehind rest).line (placeBehind rest).column (rest ++ behind)
        _ = byteLength (line ++ ['\n']) + byteLength rest := by rw [hrest]
        _ = byteLength (line ++ '\n' :: rest) := by
          rw [← byteLength_append, List.append_assoc, List.singleton_append]
    · rw [placeBehind_of_notMem hfeed, offsetFrom, firstLine_append hfeed, List.take_left]

/-! ## Cuts -/

/-- The offset of any place is the number of bytes of a part that the text begins with. -/
theorem exists_offsetFrom_eq (line column : Nat) (cs : List Char) :
    ∃ before behind, cs = before ++ behind ∧ byteLength before = offsetFrom line column cs := by
  induction line generalizing cs with
  | zero => exact ⟨cs, [], (List.append_nil cs).symm, rfl⟩
  | succ line ih =>
      cases line with
      | zero =>
          refine ⟨(firstLine cs).take column, (firstLine cs).drop column ++ behindFirstLine cs, ?_,
            rfl⟩
          rw [← List.append_assoc, List.take_append_drop, firstLine_append_behind]
      | succ line =>
          obtain ⟨before, behind, hsplit, hbytes⟩ := ih (behindFirstLine cs)
          refine ⟨firstLine cs ++ before, behind, ?_, ?_⟩
          · rw [List.append_assoc, ← hsplit, firstLine_append_behind]
          · rw [byteLength_append, hbytes, offsetFrom_next]

/-- A source can be cut behind a part that it begins with. -/
theorem isValid_byteLength (h : source.toList = before ++ behind) :
    (⟨byteLength before⟩ : String.Pos.Raw).IsValid source := by
  refine String.Pos.Raw.isValid_iff_exists_append.mpr
    ⟨String.ofList before, String.ofList behind, ?_, ?_⟩
  · rw [← String.ofList_append, ← h, String.ofList_toList]
  · rw [byteLength_ofList]
    rfl

theorem isValid_byteOffset (source : String) (place : Position) :
    (⟨byteOffset source place⟩ : String.Pos.Raw).IsValid source := by
  obtain ⟨before, behind, hsplit, hbytes⟩ :=
    exists_offsetFrom_eq place.line place.column source.toList
  unfold byteOffset
  rw [← hbytes]
  exact isValid_byteLength hsplit

theorem pos?_eq {offset : String.Pos.Raw} (h : offset.IsValid source) :
    source.pos? offset = some (source.pos offset h) := by
  unfold String.pos? String.Slice.pos?
  rw [dif_pos (String.Pos.Raw.isValidForSlice_eq_true_iff.mpr h.toSlice)]
  rfl

theorem byteOffset_placeBehind (p : source.Pos) :
    byteOffset source (placeBehind (source.sliceTo p).copy.toList) = p.offset.byteIdx := by
  obtain ⟨hsplit, hoffset⟩ := p.splits
  have hchars := congrArg String.toList hsplit
  rw [String.toList_append] at hchars
  unfold byteOffset
  rw [hchars, offsetFrom_placeBehind, byteLength_toList, hoffset]
  rfl

/-! ## Labels -/

theorem isValid_nextBlank {start : Nat} (hsplit : source.toList = before ++ behind)
    (hstart : byteLength before = start) :
    (⟨nextBlank source start behind⟩ : String.Pos.Raw).IsValid source := by
  unfold nextBlank
  split
  · next n hblank =>
    have hcut : source.toList = before ++ behind.take n ++ behind.drop n := by
      rw [List.append_assoc, List.take_append_drop, hsplit]
    rw [← hstart, ← byteLength_append]
    exact isValid_byteLength hcut
  · exact isValid_byteLength (List.append_nil _).symm

theorem isValid_max {a b : Nat} (ha : (⟨a⟩ : String.Pos.Raw).IsValid source)
    (hb : (⟨b⟩ : String.Pos.Raw).IsValid source) :
    (⟨max a b⟩ : String.Pos.Raw).IsValid source := by
  rcases Nat.le_total a b with hle | hle
  · rwa [Nat.max_eq_right hle]
  · rwa [Nat.max_eq_left hle]

/-- The source is cut at a place, and the label reaches to the next blank behind the cut. -/
theorem exists_label_eq (source : String) (place : Position) :
    ∃ before behind, source.toList = before ++ behind ∧
      byteLength before = byteOffset source place ∧
      Label.at? source place = some ⟨byteOffset source place,
        max (byteOffset source place) (nextBlank source (byteOffset source place) behind)⟩ := by
  have hvalid := isValid_byteOffset source place
  obtain ⟨hsplit, hoffset⟩ := (source.pos _ hvalid).splits
  refine ⟨_, (source.sliceFrom (source.pos _ hvalid)).copy.toList,
    (congrArg String.toList hsplit).trans String.toList_append, ?_, ?_⟩
  · exact (byteLength_toList _).trans (congrArg String.Pos.Raw.byteIdx hoffset).symm
  · unfold Label.at?
    dsimp only
    rw [pos?_eq hvalid]
    rfl

/-- Every place has a label, and the source can be cut at its end. -/
theorem exists_label (source : String) (place : Position) :
    ∃ label, Label.at? source place = some label ∧ label.start = byteOffset source place ∧
      label.start ≤ label.stop ∧ (⟨label.stop⟩ : String.Pos.Raw).IsValid source := by
  obtain ⟨before, behind, hsplit, hstart, hlabel⟩ := exists_label_eq source place
  exact ⟨_, hlabel, rfl, Nat.le_max_left ..,
    isValid_max (isValid_byteOffset source place) (isValid_nextBlank hsplit hstart)⟩

/-- A label can be marked if the source can be cut at its ends and they are in order. -/
theorem exists_mark {label : Label} (hstart : (⟨label.start⟩ : String.Pos.Raw).IsValid source)
    (hstop : (⟨label.stop⟩ : String.Pos.Raw).IsValid source) (hle : label.start ≤ label.stop) :
    ∃ mark, Mark.of? source label = some mark := by
  unfold Mark.of?
  rw [pos?_eq hstart, pos?_eq hstop]
  have hordered : source.pos _ hstart ≤ source.pos _ hstop := hle
  simp only [Option.bind_eq_bind, Option.bind_some, String.slice?, dif_pos hordered]
  exact ⟨_, rfl⟩

/-- The offset of the place behind a part of a source is the number of bytes of the part. The offset
of any place is one where the source can be cut. The label of a place begins there and does not end
before it or behind the source, and the source can be cut at both of its ends. -/
theorem byteOffset_exact (source : String) :
    (∀ p : source.Pos,
      byteOffset source (placeBehind (source.sliceTo p).copy.toList) = p.offset.byteIdx) ∧
    ∀ place, byteOffset source place ≤ source.utf8ByteSize ∧
      (⟨byteOffset source place⟩ : String.Pos.Raw).IsValid source ∧
      ∃ label, Label.at? source place = some label ∧ label.start = byteOffset source place ∧
        label.start ≤ label.stop ∧ label.stop ≤ source.utf8ByteSize ∧
        (⟨label.stop⟩ : String.Pos.Raw).IsValid source ∧
        ∃ mark, Mark.of? source label = some mark := by
  refine ⟨byteOffset_placeBehind, fun place => ?_⟩
  have hvalid := isValid_byteOffset source place
  obtain ⟨label, hlabel, hstart, hle, hstop⟩ := exists_label source place
  exact ⟨hvalid.le_utf8ByteSize, hvalid, label, hlabel, hstart, hle, hstop.le_utf8ByteSize, hstop,
    exists_mark (hstart ▸ hvalid) hstop hle⟩

/-- A column behind the end of its line is the end of the line, and behind its line feed. -/
example : byteOffset "é\nb" ⟨1, 9⟩ = 3 := by decide

end Excerpt

namespace Report

open Excerpt

theorem exists_excerpt (report : Report) (issue : Issue) :
    ∃ text, report.excerpt? issue = some text := by
  unfold excerpt?
  split
  · next file place _ _ =>
    split
    · next source _ =>
      obtain ⟨label, hlabel, hstart, hle, hstop⟩ := exists_label source place
      obtain ⟨mark, hmark⟩ := exists_mark (hstart ▸ isValid_byteOffset source place) hstop hle
      rw [hlabel, Option.bind_eq_bind, Option.bind_some, hmark]
      exact ⟨mark.render file, rfl⟩
    · exact ⟨"", rfl⟩
  · exact ⟨"", rfl⟩

/-- Every report can be shown, wherever its issues are said to be. -/
theorem exists_render (report : Report) : ∃ text, report.render? = some text := by
  choose shown hshown using report.exists_excerpt
  unfold render?
  simp only [hshown, Option.bind_eq_bind, Option.bind_some, List.mapM_pure]
  exact ⟨_, rfl⟩

end Report

end GrammarCompiler
