import GrammarCompiler.Proofs.Recursion.Parted
import GrammarCompiler.Recursion.Elimination

/-!
# Pointers between old and new alternatives

Infos and alternatives point at each other by their places alone. `LeftRecursion.link_ofInfos` says
what linking comes to for a rule of one alternative with a primary block and an operator loop
(`RuleDef.IsLoop`): infos know their places, and the alternatives of both blocks their infos.
-/

namespace GrammarCompiler

namespace LeftRecursion

/-! ## Changing elements of a list -/

section Modify

variable {α β : Type} (key : β → Nat) (f : Nat → α → α)

/-- Changes elements of a list one after another; each change is told its number. -/
def modifyAll (changes : List (β × Nat)) (xs : List α) : List α :=
  changes.foldl (fun xs change => xs.modify (key change.1) (f change.2)) xs

theorem getElem?_modifyAll_of_notMem (bs : List β) (first : Nat) (xs : List α) {j : Nat}
    (hj : j ∉ bs.map key) : (modifyAll key f (bs.zipIdx first) xs)[j]? = xs[j]? := by
  induction bs generalizing first xs with
  | nil => rfl
  | cons b bs ih =>
      obtain ⟨hne, hj⟩ := not_or.mp (List.mem_cons.not.mp hj)
      show (modifyAll key f (bs.zipIdx (first + 1)) (xs.modify (key b) (f first)))[j]? = _
      rw [ih _ _ hj, List.getElem?_modify_ne _ _ (Ne.symm hne)]

/-- An element that is changed once. -/
theorem getElem?_modifyAll (bs : List β) (first : Nat) (xs : List α) (hnodup : (bs.map key).Nodup)
    {i : Nat} {b : β} (hi : bs[i]? = some b) :
    (modifyAll key f (bs.zipIdx first) xs)[key b]? = xs[key b]?.map (f (first + i)) := by
  induction bs generalizing first xs i with
  | nil => cases hi
  | cons c bs ih =>
      obtain ⟨hc, hnodup⟩ := List.nodup_cons.mp hnodup
      show (modifyAll key f (bs.zipIdx (first + 1)) (xs.modify (key c) (f first)))[key b]? = _
      cases i with
      | zero =>
          obtain rfl := Option.some.inj hi
          rw [getElem?_modifyAll_of_notMem key f _ _ _ hc, List.getElem?_modify_eq]
          rfl
      | succ i =>
          have hne : key c ≠ key b := fun heq =>
            hc (heq ▸ List.mem_map_of_mem (List.mem_of_getElem? hi))
          rw [ih _ _ hnodup hi, List.getElem?_modify_ne _ _ hne, Nat.add_right_comm, Nat.add_assoc]

end Modify

/-! ## Places in a block -/

def placed (i : Nat) (info : AltInfo) : AltInfo :=
  { info with place := some i }

/-- Infos keep their numbers. -/
theorem nums_placed (infos : List AltInfo) :
    (infos.mapIdx placed).map (·.alt) = infos.map (·.alt) := by
  rw [List.mapIdx_eq_zipIdx_map, List.map_map]
  conv_rhs => rw [← List.zipIdx_map_fst 0 infos, List.map_map]
  rfl

theorem getElem?_placeInfos {places : List Nat} {count : Nat} (hcount : places.length ≤ count)
    (hnodup : places.Nodup) (infos : List AltInfo) {i k : Nat} (hi : places[i]? = some k) :
    (placeInfos places count infos)[k]? = infos[k]?.map (placed i) := by
  have hall := getElem?_modifyAll id placed places 0 infos (by rwa [List.map_id]) hi
  rw [Nat.zero_add] at hall
  unfold placeInfos
  rw [List.take_of_length_le hcount]
  exact hall

theorem getElem?_placeInfos_of_notMem {places : List Nat} (count : Nat) (infos : List AltInfo)
    {k : Nat} (hk : k ∉ places) : (placeInfos places count infos)[k]? = infos[k]? := by
  refine getElem?_modifyAll_of_notMem id placed (places.take count) 0 infos ?_
  rw [List.map_id]
  exact fun h => hk (List.mem_of_mem_take h)

/-- Infos in a row are told their places. -/
theorem placeInfos_row (before infos after : List AltInfo) {count : Nat}
    (hcount : infos.length ≤ count) :
    placeInfos (List.range' before.length infos.length) count (before ++ infos ++ after) =
      before ++ infos.mapIdx placed ++ after := by
  refine List.ext_getElem? fun k => ?_
  rw [List.append_assoc, List.append_assoc]
  by_cases hk : before.length ≤ k ∧ k < before.length + infos.length
  · have hplace : (List.range' before.length infos.length)[k - before.length]? = some k := by
      rw [List.getElem?_range' (by omega)]
      exact congrArg some (by omega)
    rw [getElem?_placeInfos (by simpa using hcount) List.nodup_range' _ hplace,
      List.getElem?_append_right hk.1, List.getElem?_append_right hk.1,
      List.getElem?_append_left (by omega), List.getElem?_append_left (by simp; omega),
      List.getElem?_mapIdx]
  · rw [getElem?_placeInfos_of_notMem _ _ (by simp; omega)]
    rcases Nat.lt_or_ge k before.length with hlt | hge
    · rw [List.getElem?_append_left hlt, List.getElem?_append_left hlt]
    · rw [List.getElem?_append_right hge, List.getElem?_append_right hge,
        List.getElem?_append_right (by omega), List.getElem?_append_right (by simp; omega),
        List.length_mapIdx]

/-- Alternatives without infos point at those they are given. -/
theorem getElem?_pointAlts (places : List Nat) {alts : List Alt} (h : ∀ alt ∈ alts, alt.info = none)
    (i : Nat) : (pointAlts places alts)[i]? = alts[i]?.map ({ · with info := places[i]? }) := by
  unfold pointAlts
  rw [List.getElem?_mapIdx]
  cases halt : alts[i]? with
  | none => rfl
  | some alt =>
      have hinfo := h alt (List.mem_of_getElem? halt)
      obtain ⟨elements, options, label, extent, info⟩ := alt
      obtain rfl : info = none := hinfo
      cases places[i]? <;> rfl

/-- Each alternative as written points at the info that has its number. -/
theorem getElem?_pointWritten {infos : List AltInfo} (hnodup : (infos.map (·.index)).Nodup)
    (written : List Alt) {k : Nat} {info : AltInfo} (hk : infos[k]? = some info) :
    (pointWritten infos written)[info.index]? =
      written[info.index]?.map ({ · with info := some k }) := by
  have hall := getElem?_modifyAll AltInfo.index (fun k (alt : Alt) => { alt with info := some k })
    infos 0 written hnodup hk
  rw [Nat.zero_add] at hall
  exact hall

end LeftRecursion

/-! ## What has no places any more -/

theorem Element.allUnplaced_eq_nil {es : List Element} (h : Element.allUnplaced es = []) :
    es = [] := by
  cases es with
  | nil => rfl
  | cons => cases h

theorem Element.allUnplaced_eq_cons {es fs : List Element} {f : Element}
    (h : Element.allUnplaced es = f :: fs) :
    ∃ e es', es = e :: es' ∧ e.unplaced = f ∧ Element.allUnplaced es' = fs := by
  cases es with
  | nil => cases h
  | cons e es => exact ⟨e, es, rfl, (List.cons.inj h).1, (List.cons.inj h).2⟩

theorem Alt.allUnplaced_eq_singleton {as : List Alt} {b : Alt} (h : Alt.allUnplaced as = [b]) :
    ∃ a, as = [a] ∧ a.unplaced = b := by
  match as, h with
  | [], h => cases h
  | [a], h => exact ⟨a, rfl, (List.cons.inj h).1⟩
  | _ :: _ :: _, h => cases h

theorem Element.unplaced_eq_block {e : Element} {alts : List Alt} {options : Options} {extent : Extent}
    (h : e.unplaced = .block alts options extent) :
    ∃ alts' options' extent', e = .block alts' options' extent' ∧ Alt.allUnplaced alts' = alts := by
  cases e with
  | block alts' options' extent' => exact ⟨_, _, _, rfl, (Element.block.inj h).1⟩
  | _ => cases h

theorem Element.unplaced_eq_suffixed {e inner : Element} {suffix : Suffix} {greedy : Bool}
    {extent : Extent} (h : e.unplaced = .suffixed suffix greedy inner extent) :
    ∃ inner' extent', e = .suffixed suffix greedy inner' extent' ∧ inner'.unplaced = inner := by
  cases e with
  | suffixed suffix' greedy' inner' extent' =>
      obtain ⟨rfl, rfl, hinner, -⟩ := Element.suffixed.inj h
      exact ⟨_, _, rfl, hinner⟩
  | _ => cases h

/-! ## The blocks of a rule -/

namespace RuleDef

def primaryBlock (rule : RuleDef) : List Alt :=
  match rule.alts with
  | ⟨.block alts _ _ :: _, _, _, _, _⟩ :: _ => alts
  | _ => []

def operatorBlock (rule : RuleDef) : List Alt :=
  match rule.alts with
  | ⟨_ :: .suffixed .closure _ (.block alts _ _) _ :: _, _, _, _, _⟩ :: _ => alts
  | _ => []

/-- Whether a rule has one alternative, with a block in it and no more than a loop behind. -/
def IsLoop (rule : RuleDef) : Prop :=
  ∃ alts options extent loop options' label extent' info,
    rule.alts = [⟨.block alts options extent :: loop, options', label, extent', info⟩] ∧
      (loop = [] ∨ ∃ greedy alts options extent extent',
        loop = [.suffixed .closure greedy (.block alts options extent) extent'])

/-- What a rule is if it is read as one that was put together from pieces. -/
theorem isLoop_of_unplaced {rule : RuleDef} {primary : List Piece} {operators : List (Nat × Piece)}
    (h : Alt.allUnplaced rule.alts = [Alt.ofElements (Layout.mainElements primary operators)]) :
    rule.IsLoop ∧
      Alt.allUnplaced rule.primaryBlock =
        (Piece.withAction primary).map (fun piece => Alt.ofElements piece.elements) ∧
      Alt.allUnplaced rule.operatorBlock =
        operators.map fun (precedence, piece) =>
          Alt.ofElements (piece.withGuard precedence).elements := by
  unfold IsLoop primaryBlock operatorBlock
  obtain ⟨⟨elements, options, label, extent, info⟩, halts, hmain⟩ := Alt.allUnplaced_eq_singleton h
  obtain ⟨first, loop, rfl, hfirst, hloop⟩ := Element.allUnplaced_eq_cons (Alt.mk.inj hmain).1
  obtain ⟨alts, options', inner, rfl, hprimary⟩ := Element.unplaced_eq_block hfirst
  rw [halts]
  cases operators with
  | nil =>
      obtain rfl := Element.allUnplaced_eq_nil hloop
      exact ⟨⟨_, _, _, _, _, _, _, _, rfl, .inl rfl⟩, hprimary, rfl⟩
  | cons operator operators =>
      obtain ⟨second, behind, rfl, hsecond, hbehind⟩ := Element.allUnplaced_eq_cons hloop
      obtain rfl := Element.allUnplaced_eq_nil hbehind
      obtain ⟨element, outer, rfl, helement⟩ := Element.unplaced_eq_suffixed hsecond
      obtain ⟨ops, options'', inner', rfl, hoperators⟩ := Element.unplaced_eq_block helement
      exact ⟨⟨_, _, _, _, _, _, _, _, rfl, .inr ⟨_, _, _, _, _, rfl⟩⟩, hprimary, hoperators⟩

end RuleDef

namespace LeftRecursion

section Linking

variable (primary operators : List AltInfo) (refLabels : List RefLabel) (written : List Alt)

theorem places_ofInfos : (ofInfos primary operators refLabels written).operators.map (·.2) =
    List.range' primary.length operators.length := by
  refine List.ext_getElem? fun i => ?_
  unfold ofInfos
  rcases Nat.lt_or_ge i operators.length with hlt | hge
  · simp [hlt]
  · simp [hge]

/-- The record of infos that know their places. -/
def ofLinked : LeftRecursion :=
  let infos := primary.mapIdx placed ++ operators.mapIdx placed
  { ofInfos primary operators refLabels written with infos, written := pointWritten infos written }

/-- What linking comes to. -/
theorem link_ofInfos {rule : RuleDef} (hrule : rule.IsLoop)
    (hprimary : primary.length ≤ rule.primaryBlock.length)
    (hoperators : operators.length ≤ rule.operatorBlock.length) :
    let linked := (ofInfos primary operators refLabels written).link rule
    linked.1 = ofLinked primary operators refLabels written ∧ linked.2.alts.length = 1 ∧
      linked.2.primaryBlock = pointAlts (List.range primary.length) rule.primaryBlock ∧
      linked.2.operatorBlock =
        pointAlts (List.range' primary.length operators.length) rule.operatorBlock := by
  have hplaces := places_ofInfos primary operators refLabels written
  have hfirst : placeInfos (List.range primary.length) rule.primaryBlock.length
      (primary ++ operators) = primary.mapIdx placed ++ operators := by
    have hrow := placeInfos_row [] primary operators hprimary
    rwa [List.nil_append, List.nil_append, List.length_nil, ← List.range_eq_range'] at hrow
  have hsecond : placeInfos (List.range' primary.length operators.length) rule.operatorBlock.length
      (primary.mapIdx placed ++ operators) = primary.mapIdx placed ++ operators.mapIdx placed := by
    have hrow := placeInfos_row (primary.mapIdx placed) operators [] hoperators
    rwa [List.append_nil, List.append_nil, List.length_mapIdx] at hrow
  unfold ofLinked
  rw [← hsecond, ← hfirst, ← hplaces]
  obtain ⟨name, nameToken, isFragment, args, returns, ⟨alts, blockExtent⟩, extent⟩ := rule
  obtain ⟨block, options, inner, loop, options', label, outer, info, halts, hloop⟩ := hrule
  obtain rfl : alts = _ := halts
  rcases hloop with rfl | ⟨greedy, ops, options'', inner', outer', rfl⟩
  · obtain rfl : operators = [] := List.eq_nil_of_length_eq_zero (Nat.le_zero.mp hoperators)
    exact ⟨rfl, rfl, rfl, rfl⟩
  · exact ⟨rfl, rfl, rfl, rfl⟩

theorem filterMap_zipIdx {α β : Type} (xs : List α) {f : α × Nat → Option β} {g : α × Nat → β}
    (h : ∀ i x, xs[i]? = some x → f (x, i) = some (g (x, i))) :
    xs.zipIdx.filterMap f = xs.zipIdx.map g := by
  rw [← List.filterMap_eq_map]
  refine List.filterMap_congr fun x hx => ?_
  obtain ⟨x, i⟩ := x
  exact h i x (List.mk_mem_zipIdx_iff_getElem?.mp hx)

theorem primaryInfos_ofLinked : (ofLinked primary operators refLabels written).primaryInfos =
    primary.mapIdx placed := by
  show (List.range primary.length).filterMap
    ((primary.mapIdx placed ++ operators.mapIdx placed)[·]?) = _
  rw [List.range_eq_range', ← List.zipIdx_map_snd 0 primary, List.filterMap_map,
    List.mapIdx_eq_zipIdx_map]
  refine filterMap_zipIdx primary fun i info hi => ?_
  have hlt := (List.getElem?_eq_some_iff.mp hi).1
  dsimp only [Function.comp]
  rw [List.getElem?_append_left (by simpa using hlt)]
  simp [hi]

theorem operatorInfos_ofLinked : (ofLinked primary operators refLabels written).operatorInfos =
    (operators.mapIdx placed).map fun info => (info.alt, info) := by
  show (operators.mapIdx fun i info => (info.alt, primary.length + i)).filterMap (fun o =>
    ((primary.mapIdx placed ++ operators.mapIdx placed)[o.2]?).map (o.1, ·)) = _
  generalize hinfos : primary.mapIdx placed ++ operators.mapIdx placed = infos
  rw [List.mapIdx_eq_zipIdx_map, List.mapIdx_eq_zipIdx_map, List.filterMap_map, List.map_map]
  refine filterMap_zipIdx operators fun i info hi => ?_
  dsimp only [Function.comp]
  rw [← hinfos, List.getElem?_append_right (by simp)]
  simp [hi]
  rfl

end Linking

end LeftRecursion

end GrammarCompiler
