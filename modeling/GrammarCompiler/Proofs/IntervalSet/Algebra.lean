import GrammarCompiler.Proofs.IntervalSet

/-!
# Canonical sets are an algebra of sets

Taking a symbol out and taking the common symbols of two sets cut intervals into smaller ones.
Nothing is merged afterwards, and nothing needs to be: a part of an interval keeps the distance
that the interval has to its neighbours, so parts taken in order are canonical again
(`Inside.before`).

A canonical set is determined by its members. It lists them in increasing order, without
repetition; its size is the length of that list and its least and largest symbols are the ends.
-/

namespace GrammarCompiler

open Text (minInt32 maxInt32)

namespace Interval

/-! ## Parts of intervals -/

/-- Not empty, and within the bounds of another interval. -/
structure Inside (x y : Interval) : Prop where
  first : y.a ≤ x.a
  le : x.a ≤ x.b
  last : x.b ≤ y.b

theorem Inside.fits {x y : Interval} (h : x.Inside y) (hy : y.Fits) : x.Fits :=
  ⟨h.le, Int.le_trans h.last hy.bounded⟩

/-- Parts of intervals have at least their distance. -/
theorem Inside.before {x x' y y' : Interval} (hx : x.Inside x') (hy : y.Inside y')
    (h : x'.Before y') : x.Before y := by
  have := hx.last
  have := hy.first
  unfold Before at *
  omega

/-! ## Without one symbol -/

theorem inside_of_mem_without {x y : Interval} {n : Int} (hx : x.Fits) (hy : y ∈ x.without n) :
    y.Inside x := by
  have hle := hx.le
  unfold without at hy
  split at hy
  · next hn =>
    rw [contains_iff] at hn
    rcases List.mem_append.mp hy with hy | hy
    · split at hy
      · obtain rfl := List.mem_singleton.mp hy
        constructor <;> simp only <;> omega
      · cases hy
    · split at hy
      · obtain rfl := List.mem_singleton.mp hy
        constructor <;> simp only <;> omega
      · cases hy
  · obtain rfl := List.mem_singleton.mp hy
    exact ⟨Int.le_refl _, hle, Int.le_refl _⟩

theorem mem_without {x : Interval} {n m : Int} :
    (∃ y ∈ x.without n, y.contains m = true) ↔ x.contains m = true ∧ m ≠ n := by
  simp only [contains_iff]
  unfold without
  split
  · next hn =>
    rw [contains_iff] at hn
    have hbelow : (∃ y ∈ (if x.a < n then [⟨x.a, n - 1⟩] else [] : List Interval),
        y.a ≤ m ∧ m ≤ y.b) ↔ x.a ≤ m ∧ m < n := by
      split
      · simp only [List.mem_singleton, exists_eq_left]
        omega
      · simp only [List.not_mem_nil, false_and, exists_false, false_iff]
        omega
    have habove : (∃ y ∈ (if n < x.b then [⟨n + 1, x.b⟩] else [] : List Interval),
        y.a ≤ m ∧ m ≤ y.b) ↔ n < m ∧ m ≤ x.b := by
      split
      · simp only [List.mem_singleton, exists_eq_left]
        omega
      · simp only [List.not_mem_nil, false_and, exists_false, false_iff]
        omega
    simp only [List.mem_append, or_and_right, exists_or]
    rw [hbelow, habove]
    omega
  · next hn =>
    rw [contains_iff] at hn
    simp only [List.mem_singleton, exists_eq_left]
    omega

theorem pairwise_without (x : Interval) (n : Int) : (x.without n).Pairwise Before := by
  unfold without
  split
  · have hgap : (⟨x.a, n - 1⟩ : Interval).Before ⟨n + 1, x.b⟩ := by
      show n - 1 + 1 < n + 1
      omega
    split <;> split <;> simp [hgap]
  · exact List.pairwise_singleton ..

/-! ## Common parts -/

theorem inside_of_mem_inter {xs ys : List Interval} {z : Interval} (hz : z ∈ inter xs ys) :
    (∃ x ∈ xs, z.Inside x) ∧ ∃ y ∈ ys, z.Inside y := by
  fun_induction inter xs ys with
  | case1 x xs y ys common ihx ihy =>
      rcases List.mem_append.mp hz with hz | hz
      · unfold common at hz
        split at hz
        · obtain rfl := List.mem_singleton.mp hz
          exact ⟨⟨x, List.mem_cons_self .., by constructor <;> simp only <;> omega⟩,
            ⟨y, List.mem_cons_self .., by constructor <;> simp only <;> omega⟩⟩
        · cases hz
      · split at hz
        · obtain ⟨⟨x', hx', hin⟩, hy⟩ := ihx hz
          exact ⟨⟨x', List.mem_cons_of_mem _ hx', hin⟩, hy⟩
        · obtain ⟨hx, y', hy', hin⟩ := ihy hz
          exact ⟨hx, y', List.mem_cons_of_mem _ hy', hin⟩
  | case2 ys => cases hz
  | case3 xs => cases hz

/-- The interval that ends first is left behind; what follows is inside later intervals of its
list. -/
theorem pairwise_inter {xs ys : List Interval} (hx : xs.Pairwise Before)
    (hy : ys.Pairwise Before) : (inter xs ys).Pairwise Before := by
  fun_induction inter xs ys with
  | case1 x xs y ys common ihx ihy =>
      obtain ⟨hafterx, hx'⟩ := List.pairwise_cons.mp hx
      obtain ⟨haftery, hy'⟩ := List.pairwise_cons.mp hy
      have hcommon : ∀ z ∈ common, z.Inside x ∧ z.Inside y := by
        intro z hz
        unfold common at hz
        split at hz
        · obtain rfl := List.mem_singleton.mp hz
          constructor <;> constructor <;> simp only <;> omega
        · cases hz
      have hone : common.Pairwise Before := by
        unfold common
        split <;> simp
      refine List.pairwise_append.mpr ⟨hone, ?_, fun z hz w hw => ?_⟩
      · split
        · exact ihx hx' hy
        · exact ihy hx hy'
      · split at hw
        · obtain ⟨⟨x', hmem, hin⟩, -⟩ := inside_of_mem_inter hw
          exact (hcommon z hz).1.before hin (hafterx x' hmem)
        · obtain ⟨-, y', hmem, hin⟩ := inside_of_mem_inter hw
          exact (hcommon z hz).2.before hin (haftery y' hmem)
  | case2 ys => exact .nil
  | case3 xs => exact .nil

/-! ## Symbols in order -/

theorem pairwise_toList (x : Interval) : x.toList.Pairwise (· < ·) := by
  unfold toList
  rw [List.pairwise_map]
  exact List.pairwise_lt_range.imp fun h => by omega

theorem length_toList (x : Interval) : x.toList.length = (x.b - x.a + 1).toNat := by
  simp [toList]

theorem head?_toList {x : Interval} (h : x.a ≤ x.b) : x.toList.head? = some x.a := by
  obtain ⟨n, hn⟩ : ∃ n, (x.b - x.a + 1).toNat = n + 1 := ⟨(x.b - x.a).toNat, by omega⟩
  simp [toList, hn, List.range_succ_eq_map]

theorem getLast?_toList {x : Interval} (h : x.a ≤ x.b) : x.toList.getLast? = some x.b := by
  obtain ⟨n, hn⟩ : ∃ n, (x.b - x.a + 1).toNat = n + 1 := ⟨(x.b - x.a).toNat, by omega⟩
  have hend : x.a + (n : Int) = x.b := by omega
  simp [toList, hn, List.range_succ, hend]

/-! ## Intervals are determined by what they contain -/

/-- The first of several intervals in order begins with the least symbol in any of them. -/
theorem le_of_contains {x z : Interval} {xs : List Interval} (hx : x.Fits)
    (hafter : ∀ y ∈ xs, x.Before y) (hz : z ∈ x :: xs) {n : Int} (hn : z.contains n = true) :
    x.a ≤ n := by
  rw [contains_iff] at hn
  rcases List.mem_cons.mp hz with rfl | hz
  · exact hn.1
  · have hbefore := hafter z hz
    have hle := hx.le
    unfold Before at hbefore
    omega

/-- The first interval of a list ends no later than that of a list with the same symbols, if
both begin at the same one: the symbol behind it is in no other interval. -/
theorem last_le_of_contains {x y : Interval} {xs : List Interval} (hx : x.Fits)
    (hafter : ∀ z ∈ xs, x.Before z) (ha : x.a = y.a)
    (h : ∀ n, y.contains n = true → ∃ z ∈ x :: xs, z.contains n = true) : y.b ≤ x.b := by
  by_contra hlt
  have hle := hx.le
  obtain ⟨z, hz, hn⟩ := h (x.b + 1) (contains_iff.mpr ⟨by omega, by omega⟩)
  rw [contains_iff] at hn
  rcases List.mem_cons.mp hz with rfl | hz
  · omega
  · have hbefore := hafter z hz
    unfold Before at hbefore
    omega

/-- What later intervals contain lies behind the first one. -/
theorem contains_tail_iff {x : Interval} {xs : List Interval}
    (hafter : ∀ y ∈ xs, x.Before y) (n : Int) :
    (∃ y ∈ xs, y.contains n = true) ↔ (∃ y ∈ x :: xs, y.contains n = true) ∧ x.b < n := by
  rw [List.exists_mem_cons_iff]
  constructor
  · rintro ⟨y, hy, hn⟩
    refine ⟨Or.inr ⟨y, hy, hn⟩, ?_⟩
    have hbefore := hafter y hy
    rw [contains_iff] at hn
    unfold Before at hbefore
    omega
  · rintro ⟨hn | hn, hlt⟩
    · rw [contains_iff] at hn
      omega
    · exact hn

theorem eq_of_contains_iff {xs ys : List Interval} (hxs : ∀ x ∈ xs, x.Fits)
    (hys : ∀ y ∈ ys, y.Fits) (hpx : xs.Pairwise Before) (hpy : ys.Pairwise Before)
    (h : ∀ n, (∃ x ∈ xs, x.contains n = true) ↔ ∃ y ∈ ys, y.contains n = true) : xs = ys := by
  induction xs generalizing ys with
  | nil =>
      cases ys with
      | nil => rfl
      | cons y ys =>
          have hy := hys y (List.mem_cons_self ..)
          obtain ⟨z, hz, -⟩ := (h y.a).mpr
            ⟨y, List.mem_cons_self .., contains_iff.mpr ⟨Int.le_refl _, hy.le⟩⟩
          cases hz
  | cons x xs ih =>
      have hx := hxs x (List.mem_cons_self ..)
      have hxin : x.contains x.a = true := contains_iff.mpr ⟨Int.le_refl _, hx.le⟩
      obtain ⟨hafterx, hpx'⟩ := List.pairwise_cons.mp hpx
      cases ys with
      | nil =>
          obtain ⟨z, hz, -⟩ := (h x.a).mp ⟨x, List.mem_cons_self .., hxin⟩
          cases hz
      | cons y ys =>
          have hy := hys y (List.mem_cons_self ..)
          have hyin : y.contains y.a = true := contains_iff.mpr ⟨Int.le_refl _, hy.le⟩
          obtain ⟨haftery, hpy'⟩ := List.pairwise_cons.mp hpy
          have ha : x.a = y.a := by
            obtain ⟨z, hz, hn⟩ := (h x.a).mp ⟨x, List.mem_cons_self .., hxin⟩
            obtain ⟨w, hw, hm⟩ := (h y.a).mpr ⟨y, List.mem_cons_self .., hyin⟩
            have := le_of_contains hy haftery hz hn
            have := le_of_contains hx hafterx hw hm
            omega
          have hb : x.b = y.b := by
            have := last_le_of_contains hx hafterx ha
              fun n hn => (h n).mpr ⟨y, List.mem_cons_self .., hn⟩
            have := last_le_of_contains hy haftery ha.symm
              fun n hn => (h n).mp ⟨x, List.mem_cons_self .., hn⟩
            omega
          obtain rfl : x = y := by
            cases x
            cases y
            simp only at ha hb
            rw [ha, hb]
          have htail := ih (fun z hz => hxs z (List.mem_cons_of_mem _ hz))
            (fun z hz => hys z (List.mem_cons_of_mem _ hz)) hpx' hpy' fun n => by
              rw [contains_tail_iff hafterx, contains_tail_iff haftery, h]
          rw [htail]

end Interval

namespace IntervalSet

/-! ## Removing a symbol -/

theorem Canonical.remove {set : IntervalSet} (h : set.Canonical) (n : Int) :
    (set.remove n).Canonical := by
  constructor
  · intro y hy
    obtain ⟨x, hx, hy⟩ := List.mem_flatMap.mp hy
    exact (Interval.inside_of_mem_without (h.fits x hx) hy).fits (h.fits x hx)
  · refine List.pairwise_flatMap.mpr ⟨fun x _ => Interval.pairwise_without x n, ?_⟩
    refine h.ordered.imp_of_mem fun {x y} hx hy hbefore x' hx' y' hy' => ?_
    exact (Interval.inside_of_mem_without (h.fits x hx) hx').before
      (Interval.inside_of_mem_without (h.fits y hy) hy') hbefore

theorem mem_remove {set : IntervalSet} {n m : Int} : m ∈ set.remove n ↔ m ∈ set ∧ m ≠ n := by
  rw [mem_iff_exists, mem_iff_exists]
  simp only [remove, List.mem_flatMap]
  constructor
  · rintro ⟨y, ⟨x, hx, hy⟩, hm⟩
    obtain ⟨hin, hne⟩ := Interval.mem_without.mp ⟨y, hy, hm⟩
    exact ⟨⟨x, hx, hin⟩, hne⟩
  · rintro ⟨⟨x, hx, hin⟩, hne⟩
    obtain ⟨y, hy, hm⟩ := Interval.mem_without.mpr ⟨hin, hne⟩
    exact ⟨y, ⟨x, hx, hy⟩, hm⟩

/-! ## Common symbols -/

theorem Canonical.inter {set other : IntervalSet} (h : set.Canonical) (ho : other.Canonical) :
    (set.inter other).Canonical := by
  refine ⟨fun z hz => ?_, Interval.pairwise_inter h.ordered ho.ordered⟩
  obtain ⟨⟨x, hx, hin⟩, -⟩ := Interval.inside_of_mem_inter hz
  exact hin.fits (h.fits x hx)

theorem intersects_iff {set other : IntervalSet} (h : set.Canonical) (ho : other.Canonical) :
    set.intersects other = true ↔ ∃ n, n ∈ set ∧ n ∈ other := by
  have hempty := isEmpty_iff (h.inter ho)
  simp only [mem_inter h ho] at hempty
  rw [intersects, Bool.not_eq_true', ← Bool.not_eq_true, hempty]
  simp

/-! ## Symbols in order -/

theorem pairwise_toList {set : IntervalSet} (h : set.Canonical) :
    set.toList.Pairwise (· < ·) := by
  refine List.pairwise_flatMap.mpr ⟨fun x _ => x.pairwise_toList, ?_⟩
  refine h.ordered.imp fun {x y} hbefore n hn m hm => ?_
  rw [Interval.mem_toList, Interval.contains_iff] at hn hm
  unfold Interval.Before at hbefore
  omega

theorem foldl_count (xs : List Interval) (count : Nat) :
    xs.foldl (fun count x => count + (x.b - x.a + 1).toNat) count =
      count + (xs.flatMap Interval.toList).length := by
  induction xs generalizing count with
  | nil => rfl
  | cons x xs ih =>
      rw [List.foldl_cons, ih, List.flatMap_cons, List.length_append, Interval.length_toList,
        Nat.add_assoc]

theorem size_eq (set : IntervalSet) : set.size = set.toList.length := by
  rw [size, foldl_count, Nat.zero_add, toList]

theorem min?_eq {set : IntervalSet} (h : set.Canonical) : set.min? = set.toList.head? := by
  unfold min? toList
  cases hx : set.intervals with
  | nil => rfl
  | cons x xs =>
      have hfits := h.fits x (by rw [hx]; exact List.mem_cons_self ..)
      rw [List.flatMap_cons, List.head?_append, Interval.head?_toList hfits.le]
      rfl

theorem max?_eq {set : IntervalSet} (h : set.Canonical) : set.max? = set.toList.getLast? := by
  unfold max? toList
  rcases List.eq_nil_or_concat set.intervals with hx | ⟨xs, x, hx⟩
  · rw [hx]
    rfl
  · have hfits := h.fits x (by rw [hx]; simp)
    rw [hx, List.concat_eq_append, List.getLast?_concat, List.flatMap_append,
      List.getLast?_append, List.flatMap_singleton, Interval.getLast?_toList hfits.le]
    rfl

/-! ## Sets with the same members -/

theorem eq_of_mem_iff {set other : IntervalSet} (h : set.Canonical) (ho : other.Canonical)
    (hmem : ∀ n, n ∈ set ↔ n ∈ other) : set = other := by
  have heq : set.intervals = other.intervals :=
    Interval.eq_of_contains_iff h.fits ho.fits h.ordered ho.ordered fun n => by
      rw [← mem_iff_exists, ← mem_iff_exists]
      exact hmem n
  cases set
  cases other
  rw [mk.injEq]
  exact heq

end IntervalSet

end GrammarCompiler
