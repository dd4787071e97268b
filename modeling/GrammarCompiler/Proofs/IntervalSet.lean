import GrammarCompiler.IntervalSet
import Mathlib.Data.List.Basic
import Mathlib.Tactic.Tauto

/-!
# What interval sets hold

A set is known by its members. Every operation that lookahead uses is described by what it does
to them, given that the set is *canonical*: its intervals are not empty, stay within 32 bits and
stand in increasing order with gaps between them. The operations keep sets canonical, so no
later proof looks at intervals again.

The bound of 32 bits is not decoration. The largest number counts as its own successor, and with
intervals beyond it neither the order nor the complement would come out right.
-/

namespace GrammarCompiler

open Text (maxInt32)

namespace Interval

theorem contains_iff {x : Interval} {n : Int} : x.contains n = true ↔ x.a ≤ n ∧ n ≤ x.b := by
  simp [contains]

theorem succ_le (n : Int) : succ n ≤ n + 1 := by
  unfold succ
  split <;> omega

theorem succ_of_lt {n : Int} (h : n < maxInt32) : succ n = n + 1 := by
  simp [succ, h]

/-- Not empty, and within 32 bits. -/
structure Fits (x : Interval) : Prop where
  le : x.a ≤ x.b
  bounded : x.b ≤ maxInt32

/-- One interval ends before the other begins, and there is a symbol between them. -/
def Before (x y : Interval) : Prop :=
  x.b + 1 < y.a

theorem fits_hull {x y : Interval} (hx : x.Fits) (hy : y.Fits) : (x.hull y).Fits := by
  have := hx.le
  have := hx.bounded
  have := hy.bounded
  constructor <;> simp only [hull] <;> omega

/-- Intervals that touch leave no gap between them, so their hull adds nothing. -/
theorem contains_hull {x y : Interval} (hx : x.Fits) (hy : y.Fits) (ht : x.touches y = true)
    (n : Int) : (x.hull y).contains n = true ↔ x.contains n = true ∨ y.contains n = true := by
  simp only [touches, Bool.and_eq_true, decide_eq_true_eq] at ht
  have := succ_le x.b
  have := succ_le y.b
  have := hx.le
  have := hy.le
  simp only [contains_iff, hull]
  omega

/-- Intervals that do not touch come one before the other. -/
theorem before_of_not_touches {x y : Interval} (hx : x.Fits) (hy : y.Fits)
    (ht : x.touches y = false) : x.Before y ∨ y.Before x := by
  have hx1 := hx.le
  have hx2 := hx.bounded
  have hy1 := hy.le
  have hy2 := hy.bounded
  unfold touches at ht
  rw [Bool.and_eq_false_iff, decide_eq_false_iff_not, decide_eq_false_iff_not] at ht
  unfold Before
  rcases ht with h | h
  · have : succ y.b = y.b + 1 := succ_of_lt (by unfold succ at h; split at h <;> omega)
    omega
  · have : succ x.b = x.b + 1 := succ_of_lt (by unfold succ at h; split at h <;> omega)
    omega

theorem mem_insert {new : Interval} {xs : List Interval} (hnew : new.Fits)
    (hxs : ∀ x ∈ xs, x.Fits) (n : Int) :
    (∃ x ∈ insert new xs, x.contains n = true) ↔
      new.contains n = true ∨ ∃ x ∈ xs, x.contains n = true := by
  induction xs generalizing new with
  | nil => simp [insert]
  | cons x xs ih =>
      have hx : x.Fits := hxs x (List.mem_cons_self ..)
      have htail : ∀ y ∈ xs, y.Fits := fun y hy => hxs y (List.mem_cons_of_mem _ hy)
      unfold insert
      split
      · next ht =>
        rw [ih (fits_hull hx hnew) htail, contains_hull hx hnew ht]
        rw [List.exists_mem_cons_iff]
        tauto
      · split
        · rw [List.exists_mem_cons_iff, ih hnew htail, List.exists_mem_cons_iff]
          tauto
        · rw [List.exists_mem_cons_iff]

theorem fits_insert {new : Interval} {xs : List Interval} (hnew : new.Fits)
    (hxs : ∀ x ∈ xs, x.Fits) : ∀ x ∈ insert new xs, x.Fits := by
  induction xs generalizing new with
  | nil => simpa [insert] using hnew
  | cons x xs ih =>
      have hx : x.Fits := hxs x (List.mem_cons_self ..)
      have htail : ∀ y ∈ xs, y.Fits := fun y hy => hxs y (List.mem_cons_of_mem _ hy)
      unfold insert
      split
      · exact ih (fits_hull hx hnew) htail
      · split
        · exact List.forall_mem_cons.mpr ⟨hx, ih hnew htail⟩
        · exact List.forall_mem_cons.mpr ⟨hnew, hxs⟩

/-- What comes before an interval and before a whole list comes before what inserting makes of
the two. -/
theorem before_insert {y new : Interval} {xs : List Interval} (hnew : y.Before new)
    (hxs : ∀ x ∈ xs, y.Before x) : ∀ x ∈ insert new xs, y.Before x := by
  induction xs generalizing new with
  | nil => simpa [insert] using hnew
  | cons x xs ih =>
      have hx : y.Before x := hxs x (List.mem_cons_self ..)
      have htail : ∀ z ∈ xs, y.Before z := fun z hz => hxs z (List.mem_cons_of_mem _ hz)
      unfold insert
      split
      · refine ih ?_ htail
        unfold Before hull at *
        simp only
        omega
      · split
        · exact List.forall_mem_cons.mpr ⟨hx, ih hnew htail⟩
        · exact List.forall_mem_cons.mpr ⟨hnew, hxs⟩

theorem pairwise_insert {new : Interval} {xs : List Interval} (hnew : new.Fits)
    (hxs : ∀ x ∈ xs, x.Fits) (hp : xs.Pairwise Before) :
    (insert new xs).Pairwise Before := by
  induction xs generalizing new with
  | nil => simp [insert]
  | cons x xs ih =>
      have hx : x.Fits := hxs x (List.mem_cons_self ..)
      have htail : ∀ y ∈ xs, y.Fits := fun y hy => hxs y (List.mem_cons_of_mem _ hy)
      obtain ⟨hhead, hp⟩ := List.pairwise_cons.mp hp
      unfold insert
      split
      · exact ih (fits_hull hx hnew) htail hp
      · next ht =>
        split
        · next hlt =>
          have hbefore : x.Before new := by
            rcases before_of_not_touches hx hnew (by simpa using ht) with h | h
            · exact h
            · have := hnew.le
              have := hx.le
              unfold Before at *
              omega
          exact List.pairwise_cons.mpr ⟨before_insert hbefore hhead, ih hnew htail hp⟩
        · next hlt =>
          have hbefore : new.Before x := by
            rcases before_of_not_touches hx hnew (by simpa using ht) with h | h
            · unfold Before at *
              omega
            · exact h
          refine List.pairwise_cons.mpr
            ⟨List.forall_mem_cons.mpr ⟨hbefore, fun y hy => ?_⟩,
              List.pairwise_cons.mpr ⟨hhead, hp⟩⟩
          have h1 := hhead y hy
          have h2 := hx.le
          unfold Before at *
          omega

theorem mem_toList {x : Interval} {n : Int} : n ∈ x.toList ↔ x.contains n = true := by
  unfold toList
  rw [List.mem_map, contains_iff]
  constructor
  · rintro ⟨k, hk, rfl⟩
    have := List.mem_range.mp hk
    omega
  · rintro ⟨hle, hge⟩
    exact ⟨(n - x.a).toNat, List.mem_range.mpr (by omega), by omega⟩

/-- What is common to two lists, if the first of one has nothing in common with the rest of the
other. -/
theorem and_or_of_not {p q r s : Prop} (h : p → ¬s) :
    (p ∧ q) ∨ (r ∧ (q ∨ s)) ↔ (p ∨ r) ∧ (q ∨ s) := by
  tauto

/-- The interval that ends first has nothing in common with those behind the other one. -/
theorem mem_inter {xs ys : List Interval} (hx : xs.Pairwise Before) (hy : ys.Pairwise Before)
    {n : Int} :
    (∃ z ∈ inter xs ys, z.contains n = true) ↔
      (∃ x ∈ xs, x.contains n = true) ∧ ∃ y ∈ ys, y.contains n = true := by
  fun_induction inter xs ys with
  | case1 x xs y ys common ihx ihy =>
      obtain ⟨hafterx, hx'⟩ := List.pairwise_cons.mp hx
      obtain ⟨haftery, hy'⟩ := List.pairwise_cons.mp hy
      have hcommon : (∃ z ∈ common, z.contains n = true) ↔
          x.contains n = true ∧ y.contains n = true := by
        simp only [contains_iff]
        unfold common
        split
        · simp only [List.mem_singleton, exists_eq_left]
          omega
        · simp only [List.not_mem_nil, false_and, exists_false, false_iff]
          omega
      have happend : ∀ zs : List Interval, (∃ z ∈ common ++ zs, z.contains n = true) ↔
          (x.contains n = true ∧ y.contains n = true) ∨ ∃ z ∈ zs, z.contains n = true := by
        intro zs
        rw [← hcommon, ← exists_or]
        exact exists_congr fun z => by rw [List.mem_append, or_and_right]
      rw [happend, List.exists_mem_cons_iff, List.exists_mem_cons_iff]
      split
      · next hlt =>
          have hnone : x.contains n = true → ¬∃ z ∈ ys, z.contains n = true := by
            rintro hn ⟨z, hz, hin⟩
            have hbefore := haftery z hz
            rw [contains_iff] at hn hin
            unfold Before at hbefore
            omega
          rw [ihx hx' hy, List.exists_mem_cons_iff]
          exact and_or_of_not hnone
      · next hge =>
          have hnone : y.contains n = true → ¬∃ z ∈ xs, z.contains n = true := by
            rintro hn ⟨z, hz, hin⟩
            have hbefore := hafterx z hz
            rw [contains_iff] at hn hin
            unfold Before at hbefore
            omega
          rw [ihy hx hy', List.exists_mem_cons_iff, and_comm (a := x.contains n = true),
            and_comm (b := ∃ z ∈ ys, _), and_comm (b := y.contains n = true ∨ _)]
          exact and_or_of_not hnone
  | case2 ys => simp
  | case3 xs => simp

end Interval

namespace IntervalSet

/-- Membership is what `contains` answers. -/
instance : Membership Int IntervalSet := ⟨fun set n => set.contains n = true⟩

instance (n : Int) (set : IntervalSet) : Decidable (n ∈ set) :=
  inferInstanceAs (Decidable (set.contains n = true))

theorem mem_def {n : Int} {set : IntervalSet} : n ∈ set ↔ set.contains n = true := Iff.rfl

theorem mem_iff_exists {n : Int} {set : IntervalSet} :
    n ∈ set ↔ ∃ x ∈ set.intervals, x.contains n = true := by
  simp [mem_def, contains]

/-- Intervals that are not empty and in order. -/
structure Canonical (set : IntervalSet) : Prop where
  fits : ∀ x ∈ set.intervals, x.Fits
  ordered : set.intervals.Pairwise Interval.Before

/-! ## Adding -/

theorem canonical_empty : empty.Canonical :=
  ⟨by simp [empty], by simp [empty]⟩

theorem not_mem_empty (n : Int) : n ∉ empty := by
  simp [mem_def, empty, contains]

theorem Canonical.addRange {set : IntervalSet} (h : set.Canonical) {a b : Int}
    (hb : b ≤ maxInt32) : (set.addRange a b).Canonical := by
  unfold IntervalSet.addRange
  split
  · exact h
  · have hnew : Interval.Fits ⟨a, b⟩ := ⟨by simp only; omega, hb⟩
    exact ⟨Interval.fits_insert hnew h.fits, Interval.pairwise_insert hnew h.fits h.ordered⟩

theorem mem_addRange {set : IntervalSet} (h : set.Canonical) {a b : Int} (hb : b ≤ maxInt32)
    (n : Int) : n ∈ set.addRange a b ↔ n ∈ set ∨ (a ≤ n ∧ n ≤ b) := by
  unfold IntervalSet.addRange
  split
  · constructor
    · exact Or.inl
    · rintro (h | h)
      · exact h
      · omega
  · have hnew : Interval.Fits ⟨a, b⟩ := ⟨by simp only; omega, hb⟩
    rw [mem_iff_exists, Interval.mem_insert hnew h.fits, Interval.contains_iff, mem_iff_exists]
    exact or_comm

theorem Canonical.add {set : IntervalSet} (h : set.Canonical) {n : Int} (hn : n ≤ maxInt32) :
    (set.add n).Canonical :=
  h.addRange hn

theorem mem_add {set : IntervalSet} (h : set.Canonical) {a : Int} (ha : a ≤ maxInt32)
    (n : Int) : n ∈ set.add a ↔ n ∈ set ∨ n = a := by
  unfold IntervalSet.add
  rw [mem_addRange h ha]
  exact or_congr Iff.rfl ⟨fun ⟨h1, h2⟩ => by omega, fun h => by omega⟩

theorem canonical_single {a : Int} (ha : a ≤ maxInt32) : (single a).Canonical :=
  canonical_empty.add ha

theorem mem_single {a : Int} (ha : a ≤ maxInt32) (n : Int) : n ∈ single a ↔ n = a := by
  unfold single
  rw [mem_add canonical_empty ha]
  simp [not_mem_empty]

theorem canonical_range {a b : Int} (hb : b ≤ maxInt32) : (range a b).Canonical :=
  canonical_empty.addRange hb

theorem mem_range {a b : Int} (hb : b ≤ maxInt32) (n : Int) :
    n ∈ range a b ↔ a ≤ n ∧ n ≤ b := by
  unfold range
  rw [mem_addRange canonical_empty hb]
  simp [not_mem_empty]

/-- Adding all intervals of a list one after another. -/
theorem foldl_addRange {xs : List Interval} (hxs : ∀ x ∈ xs, x.Fits) {set : IntervalSet}
    (h : set.Canonical) :
    (xs.foldl (fun set x => set.addRange x.a x.b) set).Canonical ∧
      ∀ n, n ∈ xs.foldl (fun set x => set.addRange x.a x.b) set ↔
        n ∈ set ∨ ∃ x ∈ xs, x.contains n = true := by
  induction xs generalizing set with
  | nil => exact ⟨h, by simp⟩
  | cons x xs ih =>
      have hx : x.Fits := hxs x (List.mem_cons_self ..)
      obtain ⟨hcan, hmem⟩ :=
        ih (fun y hy => hxs y (List.mem_cons_of_mem _ hy)) (h.addRange hx.bounded (a := x.a))
      refine ⟨hcan, fun n => ?_⟩
      rw [List.foldl_cons, hmem, mem_addRange h hx.bounded, List.exists_mem_cons_iff,
        Interval.contains_iff]
      tauto

theorem Canonical.addAll {set other : IntervalSet} (h : set.Canonical) (ho : other.Canonical) :
    (set.addAll other).Canonical :=
  (foldl_addRange ho.fits h).1

theorem mem_addAll {set other : IntervalSet} (h : set.Canonical) (ho : other.Canonical)
    (n : Int) : n ∈ set.addAll other ↔ n ∈ set ∨ n ∈ other := by
  unfold IntervalSet.addAll
  rw [(foldl_addRange ho.fits h).2, @mem_iff_exists _ other]

/-- A canonical set has no intervals only if it has no members. -/
theorem isEmpty_iff {set : IntervalSet} (h : set.Canonical) :
    set.isEmpty = true ↔ ∀ n, n ∉ set := by
  unfold IntervalSet.isEmpty
  cases hx : set.intervals with
  | nil => simp [mem_iff_exists, hx]
  | cons x xs =>
      have hmem : x ∈ set.intervals := by rw [hx]; exact List.mem_cons_self ..
      simp only [List.isEmpty_cons, Bool.false_eq_true, false_iff, not_forall, not_not]
      exact ⟨x.a, mem_iff_exists.mpr
        ⟨x, hmem, Interval.contains_iff.mpr ⟨Int.le_refl _, (h.fits x hmem).le⟩⟩⟩

/-! ## The complement -/

/-- The rest of a complement, when `next` is the first symbol not yet decided. -/
def complementFrom (lo hi : Int) (out : IntervalSet) (next : Int) (xs : List Interval) :
    IntervalSet :=
  let (out, next) := xs.foldl (complementStep lo hi) (out, next)
  if next ≤ hi then out.addRange next hi else out

theorem complement_eq (set : IntervalSet) (lo hi : Int) :
    set.complement lo hi = complementFrom lo hi empty lo set.intervals := rfl

theorem complementFrom_nil (lo hi : Int) (out : IntervalSet) (next : Int) :
    complementFrom lo hi out next [] = if next ≤ hi then out.addRange next hi else out := rfl

/-- An interval on one side of the range decides nothing. -/
theorem complementFrom_skip {lo hi : Int} {x : Interval} (h : x.b < lo ∨ hi < x.a)
    (out : IntervalSet) (next : Int) (xs : List Interval) :
    complementFrom lo hi out next (x :: xs) = complementFrom lo hi out next xs := by
  have hstep : complementStep lo hi (out, next) x = (out, next) := by
    simp [complementStep, h]
  unfold complementFrom
  rw [List.foldl_cons, hstep]

/-- An interval in the range decides the symbols up to its end. -/
theorem complementFrom_cons {lo hi : Int} {x : Interval} (h : ¬(x.b < lo ∨ hi < x.a))
    (out : IntervalSet) (next : Int) (xs : List Interval) :
    complementFrom lo hi out next (x :: xs) =
      complementFrom lo hi (if next < x.a then out.addRange next (x.a - 1) else out)
        (max next (Interval.succ x.b)) xs := by
  have hstep : complementStep lo hi (out, next) x =
      (if next < x.a then out.addRange next (x.a - 1) else out,
        max next (Interval.succ x.b)) := by
    simp [complementStep, h]
  unfold complementFrom
  rw [List.foldl_cons, hstep]

/-- The symbols between `next` and an interval. -/
theorem mem_gap {out : IntervalSet} (h : out.Canonical) {x : Interval} (hx : x.Fits)
    (next : Int) :
    let set := if next < x.a then out.addRange next (x.a - 1) else out
    set.Canonical ∧ ∀ n, n ∈ set ↔ n ∈ out ∨ (next ≤ n ∧ n < x.a) := by
  have hle : x.a - 1 ≤ maxInt32 := by
    have := hx.le
    have := hx.bounded
    omega
  split
  · refine ⟨h.addRange hle, fun n => ?_⟩
    rw [mem_addRange h hle]
    exact or_congr Iff.rfl (by omega)
  · refine ⟨h, fun n => ⟨Or.inl, ?_⟩⟩
    rintro (h | h)
    · exact h
    · omega

/-- A symbol of an interval is not in the complement, except for the largest one: it is its own
successor, so it is not yet decided behind the interval that it ends. -/
theorem complementFrom_spec {lo hi : Int} (hhi : hi ≤ maxInt32) {xs : List Interval}
    (hfits : ∀ x ∈ xs, x.Fits) (hord : xs.Pairwise Interval.Before) {out : IntervalSet}
    (hout : out.Canonical) {next : Int} (hnext : lo ≤ next) :
    (complementFrom lo hi out next xs).Canonical ∧
      ∀ n, n ∈ complementFrom lo hi out next xs ↔
        n ∈ out ∨ (next ≤ n ∧ n ≤ hi ∧ ∀ x ∈ xs, x.a ≤ n ∧ n ≤ x.b → n = maxInt32) := by
  induction xs generalizing out next with
  | nil =>
      rw [complementFrom_nil]
      split
      · exact ⟨hout.addRange hhi, fun n => by simp [mem_addRange hout hhi]⟩
      · refine ⟨hout, fun n => ⟨Or.inl, ?_⟩⟩
        rintro (h | ⟨h1, h2, -⟩)
        · exact h
        · omega
  | cons x xs ih =>
      have hx := hfits x (List.mem_cons_self ..)
      have htail := fun y hy => hfits y (List.mem_cons_of_mem _ hy)
      obtain ⟨hhead, hord⟩ := List.pairwise_cons.mp hord
      simp only [List.forall_mem_cons]
      by_cases hskip : x.b < lo ∨ hi < x.a
      · rw [complementFrom_skip hskip]
        obtain ⟨hcan, hmem⟩ := ih htail hord hout hnext
        refine ⟨hcan, fun n => ?_⟩
        rw [hmem]
        have hnot : next ≤ n → n ≤ hi → ¬(x.a ≤ n ∧ n ≤ x.b) := by omega
        tauto
      · rw [complementFrom_cons hskip]
        obtain ⟨hgap, hmemgap⟩ := mem_gap hout hx next
        have hmax : lo ≤ max next (Interval.succ x.b) := by omega
        obtain ⟨hcan, hmem⟩ := ih htail hord hgap hmax
        refine ⟨hcan, fun n => ?_⟩
        rw [hmem, hmemgap]
        -- what comes before the interval comes before all that follow it
        have hafter : n < x.a → ∀ y ∈ xs, ¬(y.a ≤ n ∧ n ≤ y.b) := by
          intro hn y hy
          have h1 := hhead y hy
          have h2 := hx.le
          unfold Interval.Before at h1
          omega
        have hsucc : n ≤ hi → (Interval.succ x.b ≤ n ↔ x.b < n ∨ n = maxInt32) := by
          have := hx.bounded
          unfold Interval.succ
          split <;> omega
        have hle := hx.le
        constructor
        · rintro ((h | h) | ⟨h1, h2, h3⟩)
          · exact Or.inl h
          · exact Or.inr ⟨h.1, by omega, by omega,
              fun y hy hin => absurd hin (hafter h.2 y hy)⟩
          · have := (hsucc h2).mp (by omega)
            exact Or.inr ⟨by omega, h2, by omega, h3⟩
        · rintro (h | ⟨h1, h2, h3, h4⟩)
          · exact Or.inl (Or.inl h)
          · by_cases hn : n < x.a
            · exact Or.inl (Or.inr ⟨h1, hn⟩)
            · have := (hsucc h2).mpr (by omega)
              exact Or.inr ⟨by omega, h2, h4⟩

/-- A complement that reaches up to the largest symbol holds that one in any case. -/
theorem mem_complement {set : IntervalSet} (h : set.Canonical) (lo : Int) {hi : Int}
    (hhi : hi ≤ maxInt32) :
    (set.complement lo hi).Canonical ∧
      ∀ n, n ∈ set.complement lo hi ↔ lo ≤ n ∧ n ≤ hi ∧ (n ∈ set → n = maxInt32) := by
  rw [complement_eq]
  obtain ⟨hcan, hmem⟩ := complementFrom_spec hhi h.fits h.ordered canonical_empty (Int.le_refl lo)
  refine ⟨hcan, fun n => ?_⟩
  rw [hmem, @mem_iff_exists _ set]
  simp only [not_mem_empty, false_or, Interval.contains_iff, forall_exists_index, and_imp]

/-- A complement holds what the set does not hold. -/
theorem complement_spec {set : IntervalSet} (h : set.Canonical) (lo : Int) {hi : Int}
    (hhi : hi < maxInt32) :
    (set.complement lo hi).Canonical ∧
      ∀ n, n ∈ set.complement lo hi ↔ lo ≤ n ∧ n ≤ hi ∧ n ∉ set := by
  obtain ⟨hcan, hmem⟩ := mem_complement h lo (Int.le_of_lt hhi)
  refine ⟨hcan, fun n => ?_⟩
  rw [hmem]
  have hne : n ≤ hi → n ≠ maxInt32 := by omega
  tauto

/-! ## Members one by one -/

theorem mem_toList {set : IntervalSet} (n : Int) : n ∈ set.toList ↔ n ∈ set := by
  rw [mem_iff_exists]
  unfold toList
  rw [List.mem_flatMap]
  exact exists_congr fun x => and_congr_right fun _ => Interval.mem_toList

theorem ofList_spec {symbols : List Int} (h : ∀ n ∈ symbols, n ≤ maxInt32) {set : IntervalSet}
    (hset : set.Canonical) :
    (symbols.foldl add set).Canonical ∧
      ∀ n, n ∈ symbols.foldl add set ↔ n ∈ set ∨ n ∈ symbols := by
  induction symbols generalizing set with
  | nil => exact ⟨hset, by simp⟩
  | cons m ms ih =>
      obtain ⟨hm, hms⟩ := List.forall_mem_cons.mp h
      obtain ⟨hcan, hmem⟩ := ih hms (hset.add hm)
      refine ⟨hcan, fun n => ?_⟩
      rw [List.foldl_cons, hmem, mem_add hset hm, List.mem_cons]
      tauto

/-! ## Common members -/

theorem mem_inter {set other : IntervalSet} (h : set.Canonical) (ho : other.Canonical) (n : Int) :
    n ∈ set.inter other ↔ n ∈ set ∧ n ∈ other := by
  simp only [mem_iff_exists, inter]
  exact Interval.mem_inter h.ordered ho.ordered

/-- Sets without common members do not intersect. -/
theorem not_mem_of_not_intersects {set other : IntervalSet} (h : set.Canonical)
    (ho : other.Canonical) (hno : set.intersects other = false) {n : Int} (hn : n ∈ set) :
    n ∉ other := by
  intro hother
  have hboth := (mem_inter h ho n).mpr ⟨hn, hother⟩
  unfold intersects at hno
  rw [Bool.not_eq_false'] at hno
  obtain ⟨x, hx, -⟩ := mem_iff_exists.mp hboth
  rw [isEmpty, List.isEmpty_iff] at hno
  rw [hno] at hx
  cases hx

end IntervalSet

/-! ## Lookahead that tells alternatives apart -/

open IntervalSet

theorem disjointFrom_spec {look : Look} (hlook : ∀ set, some set ∈ look → set.Canonical)
    {seen : IntervalSet} (hseen : seen.Canonical) (h : disjointFrom seen look = true) :
    (∀ entry ∈ look, ∃ set, entry = some set ∧ ∀ n ∈ set, n ∉ seen) ∧
      look.Pairwise fun x y => ∀ set set' n, x = some set → y = some set' → n ∈ set → n ∉ set' := by
  induction look generalizing seen with
  | nil => exact ⟨nofun, .nil⟩
  | cons entry rest ih =>
      cases entry with
      | none => cases h
      | some set =>
          rw [disjointFrom, Bool.and_eq_true, Bool.not_eq_true'] at h
          have hset := hlook set (List.mem_cons_self ..)
          have hfree : ∀ n ∈ set, n ∉ seen := fun n =>
            not_mem_of_not_intersects hset hseen h.1
          obtain ⟨hrest, hpairs⟩ :=
            ih (fun s hs => hlook s (List.mem_cons_of_mem _ hs)) (hseen.addAll hset) h.2
          refine ⟨List.forall_mem_cons.mpr ⟨⟨set, rfl, hfree⟩, fun other hother => ?_⟩,
            List.pairwise_cons.mpr ⟨fun other hother => ?_, hpairs⟩⟩
          · obtain ⟨set', rfl, hnot⟩ := hrest other hother
            exact ⟨set', rfl, fun n hn hin =>
              hnot n hn ((mem_addAll hseen hset n).mpr (Or.inl hin))⟩
          · rintro set₁ set₂ n hset₁ rfl hn hin
            obtain rfl := Option.some.inj hset₁
            obtain ⟨set', hset', hnot⟩ := hrest _ hother
            obtain rfl := Option.some.inj hset'
            exact hnot n hin ((mem_addAll hseen hset n).mpr (Or.inr hn))

/-- Where one symbol tells alternatives apart, each of them has a set, and no symbol is in two
of them. -/
theorem disjoint_spec {look : Look} (hlook : ∀ set, some set ∈ look → set.Canonical)
    (h : disjoint look = true) :
    (∀ entry ∈ look, ∃ set, entry = some set) ∧
      look.Pairwise fun x y => ∀ set set' n, x = some set → y = some set' → n ∈ set → n ∉ set' := by
  obtain ⟨hsome, hpairs⟩ := disjointFrom_spec hlook canonical_empty h
  refine ⟨fun entry hentry => ?_, hpairs⟩
  obtain ⟨set, hset, -⟩ := hsome entry hentry
  exact ⟨set, hset⟩

end GrammarCompiler
