import GrammarCompiler.IntervalSet.Checked
import GrammarCompiler.Proofs.IntervalSet.Algebra

/-!
# Sets that operations build

Starting with the empty set, the operations build *reachable* sets. Operations that can fail
within machine limits (`remove?`, `complement?`) build one only where they do not, so that they
never fail is a fact of its own. All of it follows from one invariant: a reachable set is
canonical and none of its symbols is below 32 bits (`Bounded`).

The complement has a flaw at the end of the range. The sweep keeps the first symbol that is not
yet decided, and behind an interval up to the largest symbol that is the largest symbol again: a
complement that reaches up to it holds it in any case (`Reachable.complement_exact`).
-/

namespace GrammarCompiler

open Text (minInt32 maxInt32 indexLimit)

theorem int32?_eq {n : Int} (h : IsInt32 n) : int32? n = some n :=
  if_pos h

namespace Interval

theorem without?_eq {x : Interval} (hx : x.Fits) (hfirst : minInt32 ≤ x.a) (n : Int) :
    x.without? n = some (x.without n) := by
  have hlast := hx.bounded
  unfold without? without
  split
  · next hn =>
    rw [contains_iff] at hn
    have hbelow : x.a < n → int32? (n - 1) = some (n - 1) :=
      fun _ => int32?_eq ⟨by omega, by omega⟩
    have habove : n < x.b → int32? (n + 1) = some (n + 1) :=
      fun _ => int32?_eq ⟨by omega, by omega⟩
    by_cases ha : x.a < n <;> by_cases hb : n < x.b <;> simp [ha, hb, hbelow, habove]
  · rfl

theorem size?_eq {x : Interval} (hx : x.Fits) (hfirst : minInt32 ≤ x.a) :
    x.size? = some (x.b - x.a + 1).toNat := by
  have hle := hx.le
  have hlast := hx.bounded
  unfold size?
  rw [if_pos]
  unfold maxInt32 minInt32 at *
  constructor <;> omega

end Interval

namespace IntervalSet

variable {set other : IntervalSet}

/-- A canonical set of symbols that have 32 bits. -/
structure Bounded (set : IntervalSet) : Prop extends Canonical set where
  first : ∀ x ∈ set.intervals, minInt32 ≤ x.a

theorem Canonical.bounded (h : set.Canonical) (hmem : ∀ n ∈ set, minInt32 ≤ n) : set.Bounded :=
  ⟨h, fun x hx => hmem x.a (mem_iff_exists.mpr
    ⟨x, hx, Interval.contains_iff.mpr ⟨Int.le_refl _, (h.fits x hx).le⟩⟩)⟩

theorem Bounded.isInt32 (h : set.Bounded) {n : Int} (hn : n ∈ set) : IsInt32 n := by
  obtain ⟨x, hx, hin⟩ := mem_iff_exists.mp hn
  have hfirst := h.first x hx
  have hlast := (h.fits x hx).bounded
  rw [Interval.contains_iff] at hin
  exact ⟨by omega, by omega⟩

/-! ## Nothing overflows -/

theorem mapM_without? {xs : List Interval} (hxs : ∀ x ∈ xs, x.Fits)
    (hfirst : ∀ x ∈ xs, minInt32 ≤ x.a) (n : Int) :
    xs.mapM (Interval.without? · n) = some (xs.map (·.without n)) := by
  induction xs with
  | nil => rfl
  | cons x xs ih =>
      obtain ⟨hx, hxs⟩ := List.forall_mem_cons.mp hxs
      obtain ⟨ha, hfirst⟩ := List.forall_mem_cons.mp hfirst
      rw [List.mapM_cons, Interval.without?_eq hx ha, ih hxs hfirst]
      rfl

theorem Bounded.remove?_eq (h : set.Bounded) (n : Int) : set.remove? n = some (set.remove n) := by
  rw [remove?, mapM_without? h.fits h.first]
  rfl

/-- Where intervals begin at `lo` or later, they have no more symbols than there are from `lo` on
within 32 bits. -/
theorem foldlM_sizeStep? {xs : List Interval} (hxs : ∀ x ∈ xs, x.Fits)
    (hord : xs.Pairwise Interval.Before) {lo : Int} (hlo : minInt32 ≤ lo)
    (hfirst : ∀ x ∈ xs, lo ≤ x.a) {count : Nat}
    (hroom : count + (maxInt32 + 1 - lo).toNat < indexLimit) :
    xs.foldlM sizeStep? count =
      some (xs.foldl (fun count x => count + (x.b - x.a + 1).toNat) count) := by
  induction xs generalizing lo count with
  | nil => rfl
  | cons x xs ih =>
      obtain ⟨hx, hxs⟩ := List.forall_mem_cons.mp hxs
      obtain ⟨ha, hfirst⟩ := List.forall_mem_cons.mp hfirst
      obtain ⟨hafter, hord⟩ := List.pairwise_cons.mp hord
      have hle := hx.le
      have hlast := hx.bounded
      have hstep : sizeStep? count x = some (count + (x.b - x.a + 1).toNat) := by
        rw [sizeStep?, Interval.size?_eq hx (by omega), Option.bind_eq_bind, Option.bind_some,
          if_pos (by omega)]
      rw [List.foldlM_cons, hstep, List.foldl_cons, Option.bind_eq_bind, Option.bind_some]
      have hbehind : ∀ y ∈ xs, x.b + 1 ≤ y.a := fun y hy => Int.le_of_lt (hafter y hy)
      exact ih hxs hord (by omega) hbehind (by omega)

theorem Bounded.size?_eq (h : set.Bounded) : set.size? = some set.size :=
  foldlM_sizeStep? h.fits h.ordered (Int.le_refl minInt32) h.first (by decide)

theorem le_complementStep (lo hi : Int) (state : IntervalSet × Int) (x : Interval) :
    state.2 ≤ (complementStep lo hi state x).2 := by
  simp only [complementStep]
  split
  · exact Int.le_refl _
  · exact Int.le_max_left ..

/-- The first symbol not yet decided never falls below 32 bits, so the end of a gap before an
interval does not either. -/
theorem foldlM_complementStep? {xs : List Interval} (hxs : ∀ x ∈ xs, x.Fits) (lo hi : Int)
    {state : IntervalSet × Int} (hnext : minInt32 ≤ state.2) :
    xs.foldlM (complementStep? lo hi) state = some (xs.foldl (complementStep lo hi) state) := by
  induction xs generalizing state with
  | nil => rfl
  | cons x xs ih =>
      obtain ⟨hx, hxs⟩ := List.forall_mem_cons.mp hxs
      obtain ⟨out, next⟩ := state
      simp only at hnext
      have hle := hx.le
      have hlast := hx.bounded
      have hend : next < x.a → int32? (x.a - 1) = some (x.a - 1) :=
        fun _ => int32?_eq ⟨by omega, by omega⟩
      have hstep : complementStep? lo hi (out, next) x =
          some (complementStep lo hi (out, next) x) := by
        unfold complementStep? complementStep
        by_cases hskip : x.b < lo || hi < x.a
        · simp only [hskip, if_true]
        · by_cases hgap : next < x.a <;> simp [hskip, hgap, hend]
      rw [List.foldlM_cons, hstep, List.foldl_cons, Option.bind_eq_bind, Option.bind_some]
      exact ih hxs (Int.le_trans hnext (le_complementStep lo hi (out, next) x))

theorem Bounded.complement?_eq (h : set.Bounded) {lo : Int} (hlo : minInt32 ≤ lo) (hi : Int) :
    set.complement? lo hi = some (set.complement lo hi) := by
  unfold complement?
  rw [foldlM_complementStep? h.fits lo hi hlo]
  rfl

/-! ## Reachable sets -/

/-- The sets that operations with symbols of 32 bits build, beginning with the empty one. -/
inductive Reachable : IntervalSet → Prop
  | empty : Reachable empty
  | add {set : IntervalSet} {n : Int} (hset : Reachable set) (hn : IsInt32 n) :
      Reachable (set.add n)
  | addRange {set : IntervalSet} {a b : Int} (hset : Reachable set) (ha : IsInt32 a)
      (hb : IsInt32 b) : Reachable (set.addRange a b)
  | addAll {set other : IntervalSet} (hset : Reachable set) (hother : Reachable other) :
      Reachable (set.addAll other)
  | remove {set out : IntervalSet} {n : Int} (hset : Reachable set) (hn : IsInt32 n)
      (hout : set.remove? n = some out) : Reachable out
  | inter {set other : IntervalSet} (hset : Reachable set) (hother : Reachable other) :
      Reachable (set.inter other)
  | complement {set out : IntervalSet} {lo hi : Int} (hset : Reachable set) (hlo : IsInt32 lo)
      (hhi : IsInt32 hi) (hout : set.complement? lo hi = some out) : Reachable out

theorem Bounded.addRange (h : set.Bounded) {a b : Int} (ha : IsInt32 a) (hb : IsInt32 b) :
    (set.addRange a b).Bounded := by
  refine (h.toCanonical.addRange hb.2).bounded fun n hn => ?_
  rcases (mem_addRange h.toCanonical hb.2 n).mp hn with hn | hn
  · exact (h.isInt32 hn).1
  · exact Int.le_trans ha.1 hn.1

/-- No operation leaves the invariant. -/
theorem Reachable.bounded (h : Reachable set) : set.Bounded := by
  induction h with
  | empty => exact canonical_empty.bounded fun n hn => absurd hn (not_mem_empty n)
  | add _ hn ih => exact ih.addRange hn hn
  | addRange _ ha hb ih => exact ih.addRange ha hb
  | addAll _ _ ih iho =>
      refine (ih.toCanonical.addAll iho.toCanonical).bounded fun n hn => ?_
      rcases (mem_addAll ih.toCanonical iho.toCanonical n).mp hn with hn | hn
      · exact (ih.isInt32 hn).1
      · exact (iho.isInt32 hn).1
  | remove _ _ hout ih =>
      rw [ih.remove?_eq] at hout
      obtain rfl := Option.some.inj hout
      exact (ih.toCanonical.remove _).bounded fun n hn => (ih.isInt32 (mem_remove.mp hn).1).1
  | inter _ _ ih iho =>
      exact (ih.toCanonical.inter iho.toCanonical).bounded fun n hn =>
        (ih.isInt32 ((mem_inter ih.toCanonical iho.toCanonical n).mp hn).1).1
  | complement _ hlo hhi hout ih =>
      rw [ih.complement?_eq hlo.1] at hout
      obtain rfl := Option.some.inj hout
      obtain ⟨hcan, hmem⟩ := mem_complement ih.toCanonical _ hhi.2
      exact hcan.bounded fun n hn => Int.le_trans hlo.1 ((hmem n).mp hn).1

/-- Intervals of symbols of 32 bits that are not empty, in order and neither overlapping nor
adjacent. -/
structure Normal (set : IntervalSet) : Prop where
  fits : ∀ x ∈ set.intervals, IsInt32 x.a ∧ x.a ≤ x.b ∧ IsInt32 x.b
  gaps : set.intervals.Pairwise fun x y => x.b + 1 < y.a

theorem Bounded.normal (h : set.Bounded) : set.Normal := by
  refine ⟨fun x hx => ?_, h.ordered⟩
  have hle := (h.fits x hx).le
  have hlast := (h.fits x hx).bounded
  have hfirst := h.first x hx
  exact ⟨⟨hfirst, by omega⟩, hle, ⟨by omega, hlast⟩⟩

/-- The list of symbols, and what is read off a set without making it. -/
structure Listed (set : IntervalSet) : Prop where
  increasing : set.toList.Pairwise (· < ·)
  mem : ∀ n, n ∈ set.toList ↔ n ∈ set
  size : set.size? = some set.toList.length
  least : set.min? = set.toList.head?
  largest : set.max? = set.toList.getLast?

theorem Bounded.listed (h : set.Bounded) : set.Listed where
  increasing := pairwise_toList h.toCanonical
  mem := mem_toList
  size := by rw [h.size?_eq, size_eq]
  least := min?_eq h.toCanonical
  largest := max?_eq h.toCanonical

/-- Reachable sets are an algebra of sets of symbols in normal form: no operation overflows, each
does to the members what it should, and sets with the same members are equal. -/
theorem Reachable.set_algebra (hset : Reachable set) (hother : Reachable other) {a b : Int}
    (ha : IsInt32 a) (hb : IsInt32 b) :
    set.Normal ∧ set.Listed ∧
    (∀ n, n ∈ set.add a ↔ n ∈ set ∨ n = a) ∧
    (∀ n, n ∈ set.addRange a b ↔ n ∈ set ∨ (a ≤ n ∧ n ≤ b)) ∧
    (∀ n, n ∈ set.addAll other ↔ n ∈ set ∨ n ∈ other) ∧
    (∃ out, set.remove? a = some out ∧ ∀ n, n ∈ out ↔ n ∈ set ∧ n ≠ a) ∧
    (∀ n, n ∈ set.inter other ↔ n ∈ set ∧ n ∈ other) ∧
    (set.intersects other = true ↔ ∃ n, n ∈ set ∧ n ∈ other) ∧
    ((set == other) = true ↔ ∀ n, n ∈ set ↔ n ∈ other) := by
  have h := hset.bounded
  have ho := hother.bounded
  refine ⟨h.normal, h.listed, mem_add h.toCanonical ha.2, mem_addRange h.toCanonical hb.2,
    mem_addAll h.toCanonical ho.toCanonical, ⟨_, h.remove?_eq a, fun n => mem_remove⟩,
    mem_inter h.toCanonical ho.toCanonical, intersects_iff h.toCanonical ho.toCanonical, ?_⟩
  rw [beq_iff_eq]
  constructor
  · rintro rfl n
    exact Iff.rfl
  · exact eq_of_mem_iff h.toCanonical ho.toCanonical

/-- At both ends of the range: intervals grow together at the least symbol and are cut in two
again, and another one ends with the largest symbol. -/
theorem set_algebra_at_limits :
    let set := ((empty.add maxInt32).addRange (minInt32 + 1) (minInt32 + 2)).add minInt32
    let other := empty.addRange (maxInt32 - 1) maxInt32
    let rest : IntervalSet :=
      ⟨[⟨minInt32, minInt32⟩, ⟨minInt32 + 2, minInt32 + 2⟩, ⟨maxInt32, maxInt32⟩]⟩
    set.remove? (minInt32 + 1) = some rest ∧ Reachable rest ∧ Reachable other ∧
      rest.Normal ∧ rest.size? = some 3 ∧ rest.max? = some maxInt32 ∧
      (∃ out, rest.remove? maxInt32 = some out ∧ ∀ n, n ∈ out ↔ n ∈ rest ∧ n ≠ maxInt32) ∧
      (∀ n, n ∈ rest.inter other ↔ n ∈ rest ∧ n ∈ other) ∧ rest.intersects other = true ∧
      (rest == other) = false := by
  intro set other rest
  have hmin : IsInt32 minInt32 := by decide
  have hmax : IsInt32 maxInt32 := by decide
  have hsecond : IsInt32 (minInt32 + 1) := by decide
  have hset : Reachable set :=
    ((Reachable.empty.add hmax).addRange hsecond (by decide)).add hmin
  have hother : Reachable other := Reachable.empty.addRange (by decide) hmax
  have hremoved : set.remove? (minInt32 + 1) = some rest := by decide
  have hrest := hset.remove hsecond hremoved
  obtain ⟨hnormal, hlisted, -, -, -, hout, hinter, hintersects, hequal⟩ :=
    hrest.set_algebra hother hmax hmin
  refine ⟨hremoved, hrest, hother, hnormal, hlisted.size, hlisted.largest, hout, hinter, ?_, ?_⟩
  · exact hintersects.mpr ⟨maxInt32, by decide, by decide⟩
  · rw [← Bool.not_eq_true, hequal]
    intro h
    exact absurd ((h minInt32).mp (by decide)) (by decide)

/-! ## Complements -/

/-- A complement holds the symbols of its range that the set does not hold, and the largest
symbol of all whenever the range reaches up to it. -/
theorem Reachable.complement_exact (hset : Reachable set) {lo hi : Int} (hlo : IsInt32 lo)
    (hhi : IsInt32 hi) :
    ∃ out, set.complement? lo hi = some out ∧ out.Normal ∧
      ∀ n, n ∈ out ↔ lo ≤ n ∧ n ≤ hi ∧ (n ∈ set → n = maxInt32) :=
  ⟨_, hset.bounded.complement?_eq hlo.1 hi,
    (Reachable.complement hset hlo hhi (hset.bounded.complement?_eq hlo.1 hi)).bounded.normal,
    (mem_complement hset.bounded.toCanonical lo hhi.2).2⟩

/-- A range between the symbols of a set, and the range of all symbols: the largest one is in the
complement although the set holds it. -/
theorem complement_exact_at_limits :
    let set := (empty.add minInt32).addRange 5 maxInt32
    Reachable set ∧
      (set.complement? 3 7 = some ⟨[⟨3, 4⟩]⟩ ∧
        ∀ n, n ∈ (⟨[⟨3, 4⟩]⟩ : IntervalSet) ↔ 3 ≤ n ∧ n ≤ 7 ∧ (n ∈ set → n = maxInt32)) ∧
      ∃ out, set.complement? minInt32 maxInt32 = some out ∧ out.Normal ∧ minInt32 ∉ out ∧
        maxInt32 ∈ out := by
  intro set
  have hset : Reachable set :=
    (Reachable.empty.add (by decide : IsInt32 minInt32)).addRange (by decide) (by decide)
  have hinner : set.complement? 3 7 = some ⟨[⟨3, 4⟩]⟩ := by decide
  obtain ⟨inner, hout, -, hmem⟩ :=
    hset.complement_exact (by decide : IsInt32 3) (by decide : IsInt32 7)
  obtain rfl := Option.some.inj (hinner.symm.trans hout)
  obtain ⟨whole, hwhole, hnormal, hmem'⟩ :=
    hset.complement_exact (by decide : IsInt32 minInt32) (by decide : IsInt32 maxInt32)
  refine ⟨hset, ⟨hinner, hmem⟩, whole, hwhole, hnormal, fun hin => ?_, ?_⟩
  · exact absurd (((hmem' _).mp hin).2.2 (by decide)) (by decide)
  · exact (hmem' _).mpr ⟨by decide, by decide, fun _ => rfl⟩

/-- The complement of the largest symbol within a range that ends with it is the whole range. -/
theorem largest_mem_complement :
    Reachable (single maxInt32) ∧ IsInt32 0 ∧ IsInt32 maxInt32 ∧ maxInt32 ∈ single maxInt32 ∧
      ∃ out, (single maxInt32).complement? 0 maxInt32 = some out ∧ maxInt32 ∈ out := by
  have hmax : IsInt32 maxInt32 := by decide
  exact ⟨Reachable.empty.add hmax, by decide, hmax, by decide, ⟨[⟨0, maxInt32⟩]⟩, by decide,
    by decide⟩

end IntervalSet

end GrammarCompiler
