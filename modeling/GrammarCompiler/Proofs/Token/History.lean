import GrammarCompiler.Proofs.Ast.Shifted
import GrammarCompiler.Proofs.Token.Extended
import GrammarCompiler.Proofs.Token.Slice
import Mathlib.Data.List.Induction

/-!
# The history of a token table

A table comes about by operations, beginning with the empty one (`TokenTable.Built`). Whatever they
are, a token stands at the place that is its index and comes from a source that has a name
(`TokenTable.Ordered`), and no operation takes a token away or makes another one of it. All that can
change is where a token is shown, and only `relocate` changes that (`get?_perform`): after any number
of operations a token is shown where it was, or where some token was when it was relocated
(`get?_run`).

Reading a rule relocates tokens too, but none of those that were there before: it is the addition of a
source followed by relocations of its tokens (`perform_parseRule`).
-/

namespace GrammarCompiler

/-- Where a token is shown: the source and the place in it. -/
def Token.place (t : Token) : Nat × Text.Position :=
  (t.source, t.position)

namespace TokenTable

/-! ## Operations -/

inductive Operation where
  | addSource (name : String) (trees : List TokenTree)
  | append (other : TokenTable)
  | relocate (index origin : Nat)
  | parseRule (name source : String)

def perform (table : TokenTable) : Operation → TokenTable
  | .addSource name trees => table.addSource name trees
  | .append other => (table.absorb other).1
  | .relocate index origin => table.relocate index origin
  | .parseRule name source => (RuleDef.parse name source table).2

def run (table : TokenTable) (ops : List Operation) : TokenTable :=
  ops.foldl perform table

/-- The tables that operations build from the empty one. A table that is appended is built like this
itself. -/
inductive Built : TokenTable → Prop
  | run {ops : List Operation} (h : ∀ other, .append other ∈ ops → Built other) :
      Built (empty.run ops)

variable {table other : TokenTable} {op : Operation} {i : Nat} {t : Token}

theorem run_append (table : TokenTable) (ops ops' : List Operation) :
    table.run (ops ++ ops') = (table.run ops).run ops' :=
  List.foldl_append

theorem run_relocations (copies : List (Nat × Nat)) (table : TokenTable) :
    table.run (copies.map fun (index, origin) => .relocate index origin) =
      table.relocateAll copies :=
  List.foldl_map

theorem lt_size_of_get? (h : table.get? i = some t) : i < table.size :=
  (Array.getElem?_eq_some_iff.mp h).1

/-- Reading a rule adds a source, or nothing at all, and relocates some of the tokens added. -/
theorem perform_parseRule (name source : String) (table : TokenTable) :
    ∃ steps, table.perform (.parseRule name source) = table.run steps ∧
      ∀ step ∈ steps, (∃ trees, step = .addSource name trees) ∨
        ∃ index origin, step = .relocate index origin ∧ table.size ≤ index := by
  show ∃ steps, (RuleDef.parse name source table).2 = table.run steps ∧ _
  unfold RuleDef.parse
  split
  · exact ⟨[], rfl, nofun⟩
  next trees htrees =>
  have hsource : ∀ step ∈ [Operation.addSource name trees],
      (∃ trees, step = .addSource name trees) ∨
        ∃ index origin, step = .relocate index origin ∧ table.size ≤ index :=
    List.forall_mem_singleton.mpr (.inl ⟨trees, rfl⟩)
  dsimp only
  split
  · exact ⟨[.addSource name trees], rfl, hsource⟩
  next rule behind hbehind hread =>
  split
  · exact ⟨[.addSource name trees], rfl, hsource⟩
  obtain ⟨used, -, hspelled⟩ := Cursor.takes_rule hread
  have hmoves := run_relocations rule.copiedTokens (table.addSource name trees)
  refine ⟨.addSource name trees :: _, hmoves.symm, List.forall_mem_cons.mpr ⟨.inl ⟨trees, rfl⟩,
    List.forall_mem_map.mpr fun copy hcopy => .inr ⟨copy.1, copy.2, rfl, ?_⟩⟩⟩
  exact (hspelled.copiedTokens.2 copy hcopy).1

/-! ## Order -/

theorem Indexed.get? (h : table.Indexed) (ht : table.get? i = some t) : t.index = i := by
  have hi := lt_size_of_get? ht
  have hindex := congrArg (·[i]?) h
  simp only [List.getElem?_map, Array.getElem?_toList, List.getElem?_range' hi] at hindex
  rw [show table.tokens[i]? = some t from ht] at hindex
  simpa using hindex

theorem Extends.append (table other : TokenTable) : (table.append other).Extends table :=
  ⟨by
    rw [TokenTable.append, Array.toList_append]
    exact List.prefix_append .., by
    rw [TokenTable.append, Array.toList_append]
    exact List.prefix_append ..⟩

theorem Indexed.append (h : table.Indexed) (hother : other.Indexed) :
    (table.append other).Indexed := by
  unfold Indexed at h hother ⊢
  have hmoved : (other.tokens.toList.map Token.index).map (table.size + ·) =
      List.range' table.size other.size := by
    rw [hother, List.map_add_range', Nat.add_zero]
  have hsize : (table.append other).size = table.size + other.size := by
    simp [TokenTable.append, size]
  rw [hsize, ← List.range'_append_1, ← h, Nat.zero_add, ← hmoved]
  simp [TokenTable.append, Function.comp_def, Nat.add_comm]

theorem Sourced.append (h : table.Sourced) (hother : other.Sourced) :
    (table.append other).Sourced := by
  unfold Sourced TokenTable.append
  simp only [Array.toList_append, Array.toList_map, Array.size_append]
  refine List.forall_mem_append.mpr ⟨fun t ht => ?_, List.forall_mem_map.mpr fun t ht => ?_⟩
  · have := h t ht
    omega
  · have := hother t ht
    dsimp only
    omega

/-- What does not depend on where a token is shown is the same for all tokens after a relocation. -/
theorem map_relocate {α : Type} {f : Token → α} (hf : ∀ t there, f (shownAt t there) = f t)
    (table : TokenTable) (index origin : Nat) :
    (table.relocate index origin).tokens.toList.map f = table.tokens.toList.map f := by
  unfold relocate
  split
  · rfl
  · refine List.ext_getElem? fun i => ?_
    simp only [List.getElem?_map, Array.getElem?_toList, Array.getElem?_modify]
    split
    · rw [Option.map_map]
      exact congrArg (Option.map · _) (funext fun t => hf t _)
    · rfl

theorem Indexed.relocate (h : table.Indexed) (index origin : Nat) :
    (table.relocate index origin).Indexed := by
  unfold Indexed
  rw [map_relocate (fun _ _ => rfl), size_relocate]
  exact h

theorem Sourced.relocate (h : table.Sourced) (index origin : Nat) :
    (table.relocate index origin).Sourced := by
  unfold TokenTable.relocate
  split
  · exact h
  · next there hthere =>
    intro t ht
    obtain ⟨i, hi⟩ := List.mem_iff_getElem?.mp ht
    rw [Array.getElem?_toList, Array.getElem?_modify] at hi
    split at hi
    · obtain ⟨old, -, rfl⟩ := Option.map_eq_some_iff.mp hi
      show there.source < table.sources.size
      exact h.get? hthere
    · exact h.get? hi

/-- Every token has its place as its index, and a source that has a name. -/
structure Ordered (table : TokenTable) : Prop where
  indexed : table.Indexed
  sourced : table.Sourced

theorem ordered_empty : empty.Ordered :=
  ⟨indexed_empty, sourced_empty⟩

theorem Ordered.addSource (h : table.Ordered) (name : String) (trees : List TokenTree) :
    (table.addSource name trees).Ordered :=
  ⟨h.indexed.addSource name trees, h.sourced.addSource name trees⟩

theorem Ordered.relocate (h : table.Ordered) (index origin : Nat) :
    (table.relocate index origin).Ordered :=
  ⟨h.indexed.relocate index origin, h.sourced.relocate index origin⟩

theorem Ordered.perform (h : table.Ordered) (hother : ∀ other, op = .append other → other.Ordered) :
    (table.perform op).Ordered := by
  cases op with
  | addSource name trees => exact h.addSource name trees
  | append other =>
      obtain ⟨hindexed, hsourced⟩ := hother other rfl
      exact ⟨h.indexed.append hindexed, h.sourced.append hsourced⟩
  | relocate index origin => exact h.relocate index origin
  | parseRule name source =>
      obtain ⟨steps, hrun, hsteps⟩ := perform_parseRule name source table
      rw [hrun]
      refine List.foldlRecOn steps TokenTable.perform h fun table h step hstep => ?_
      rcases hsteps step hstep with ⟨trees, rfl⟩ | ⟨index, origin, rfl, -⟩
      · exact h.addSource name trees
      · exact h.relocate index origin

theorem Ordered.run {ops : List Operation} (h : table.Ordered)
    (hother : ∀ other, .append other ∈ ops → other.Ordered) : (table.run ops).Ordered :=
  List.foldlRecOn ops TokenTable.perform h fun _ h _ hop =>
    h.perform fun other heq => hother other (heq ▸ hop)

/-- What is built may be built on. -/
theorem Built.continued {ops : List Operation} (h : table.Built)
    (happended : ∀ other, .append other ∈ ops → Built other) : (table.run ops).Built := by
  obtain ⟨hbefore⟩ := h
  rw [← run_append]
  exact .run fun other hother => (List.mem_append.mp hother).elim (hbefore other) (happended other)

theorem Built.ordered (h : table.Built) : table.Ordered := by
  induction h with
  | run _ ih => exact ordered_empty.run ih

theorem Ordered.get? (h : table.Ordered) (ht : table.get? i = some t) :
    t.index = i ∧ table.sources[t.source]? = some (table.sourceName t.source) := by
  refine ⟨h.indexed.get? ht, ?_⟩
  have hsource := h.sourced.get? ht
  unfold sourceName
  rw [Array.getElem?_eq_getElem hsource, Option.getD_some]

/-! ## Tokens that are there -/

/-- An operation leaves a token as it is, or it relocates this token to where one of the table is. -/
theorem get?_perform (op : Operation) (h : table.get? i = some t) :
    (table.perform op).get? i = some t ∨
      ∃ origin there, op = .relocate i origin ∧ table.get? origin = some there ∧
        (table.perform op).get? i = some (shownAt t there) := by
  have hi := lt_size_of_get? h
  cases op with
  | addSource name trees => exact .inl (((Extends.addSource table name trees).get? hi).trans h)
  | append other => exact .inl (((Extends.append table other).get? hi).trans h)
  | parseRule name source =>
      exact .inl (((RuleDef.extends_of_parse name source table).get? hi).trans h)
  | relocate index origin =>
      by_cases hindex : index = i
      · subst hindex
        cases hthere : table.get? origin with
        | none =>
            refine .inl ?_
            rw [perform, TokenTable.relocate, hthere]
            exact h
        | some there => exact .inr ⟨origin, there, rfl, hthere, table.get?_relocate_self h hthere⟩
      · exact .inl ((table.get?_relocate_of_ne hindex).trans h)

/-- Whether a token that was `t` is shown as it was, or where the operations have relocated it to. -/
def ShownBy (table : TokenTable) (ops : List Operation) (i : Nat) (t t' : Token) : Prop :=
  t'.place = t.place ∨
    ∃ earlier later origin there, ops = earlier ++ .relocate i origin :: later ∧
      (table.run earlier).get? origin = some there ∧ t'.place = there.place

theorem ShownBy.snoc {ops : List Operation} {t' : Token} (h : table.ShownBy ops i t t')
    (op : Operation) : table.ShownBy (ops ++ [op]) i t t' := by
  rcases h with hsame | ⟨earlier, later, origin, there, rfl, hthere, hplace⟩
  · exact .inl hsame
  · exact .inr ⟨earlier, later ++ [op], origin, there, by simp, hthere, hplace⟩

theorem get?_run (h : table.get? i = some t) (ops : List Operation) :
    ∃ t', (table.run ops).get? i = some t' ∧ t'.index = t.index ∧ t'.written = t.written ∧
      table.ShownBy ops i t t' := by
  induction ops using List.reverseRecOn with
  | nil => exact ⟨t, h, rfl, rfl, .inl rfl⟩
  | append_singleton ops op ih =>
      obtain ⟨t', ht', hindex, hwritten, hshown⟩ := ih
      rw [run_append]
      rcases get?_perform op ht' with hsame | ⟨origin, there, rfl, hthere, hmoved⟩
      · exact ⟨t', hsame, hindex, hwritten, hshown.snoc op⟩
      · exact ⟨_, hmoved, hindex, hwritten, .inr ⟨ops, [], origin, there, rfl, hthere, rfl⟩⟩

/-! ## Tokens that are taken in -/

/-- What it is to take in another table: its tokens stand behind those of the table, renumbered, and
the names of their sources are the same. -/
structure Absorbs (table other after : TokenTable) (offset : Nat) : Prop where
  moved : offset = table.size
  size : after.size = table.size + other.size
  tokens : ∀ i t, other.get? i = some t → ∃ t', after.get? (offset + i) = some t' ∧
    t'.index = offset + i ∧ t'.written = t.written ∧ t'.position = t.position ∧
      after.sourceName t'.source = other.sourceName t.source

theorem absorbs_absorb (table : TokenTable) (hother : other.Ordered) :
    table.Absorbs other (table.absorb other).1 (table.absorb other).2 where
  moved := rfl
  size := by simp [absorb, TokenTable.append, TokenTable.size]
  tokens := by
    intro i t ht
    have hmoved := table.get?_append other i
    rw [ht, Nat.add_comm] at hmoved
    refine ⟨_, hmoved, ?_, rfl, rfl, table.sourceName_append other t.source⟩
    have hindex := (hother.get? ht).1
    show t.index + table.size = table.size + i
    omega

/-! ## What every history keeps -/

/-- However a table has come about, its tokens stand at the places that are their indices, and their
sources have names. However it goes on, each of its tokens stays where it is and what it is; it is
shown elsewhere only if it is relocated to where a token is at that moment, and then it is shown
there. Reading a rule relocates none but tokens that it has added. A table that is taken in stands
behind the tokens there are. -/
theorem Built.run_exact (h : table.Built) {ops : List Operation}
    (happended : ∀ other, .append other ∈ ops → Built other) :
    (table.run ops).Built ∧
    (∀ i t, table.get? i = some t →
      t.index = i ∧ table.sources[t.source]? = some (table.sourceName t.source)) ∧
    (∀ i t, table.get? i = some t → ∃ t', (table.run ops).get? i = some t' ∧
      t'.index = t.index ∧ t'.written = t.written ∧ table.ShownBy ops i t t') ∧
    (∀ i origin t there, table.get? i = some t → table.get? origin = some there →
      (table.perform (.relocate i origin)).get? i = some (shownAt t there)) ∧
    (∀ name source, ∃ steps, table.perform (.parseRule name source) = table.run steps ∧
      ∀ step ∈ steps, (∃ trees, step = .addSource name trees) ∨
        ∃ index origin, step = .relocate index origin ∧ table.size ≤ index) ∧
    ∀ other, Built other → table.Absorbs other (table.absorb other).1 (table.absorb other).2 := by
  refine ⟨h.continued happended, fun i t ht => h.ordered.get? ht, fun i t ht => get?_run ht ops,
    fun i origin t there ht hthere => table.get?_relocate_self ht hthere,
    fun name source => perform_parseRule name source table,
    fun other hother => absorbs_absorb table hother.ordered⟩

/-- A table goes on by taking in another one, by a copied rule, by two texts that are no rules, and
by a relocation to a token that has been taken in. -/
theorem Built.run_exact_relocated :
    let table := empty.run [.parseRule "T.g" "a : B ;"]
    let imported := empty.run [.parseRule "I.g" "bb : C ;"]
    let ops := [.append imported, .parseRule "<a>" "a : B<tokenIndex=2> ;", .parseRule "x" "a : (",
      .parseRule "y" "a : ", .relocate 2 6]
    table.Built ∧ (∀ other, .append other ∈ ops → Built other) ∧ (table.run ops).Built ∧
      (table.run ops).size = 19 ∧
      ∃ t t', table.get? 2 = some t ∧ (table.run ops).get? 2 = some t' ∧ t'.index = t.index ∧
        t'.written = t.written ∧ table.ShownBy ops 2 t t' ∧ t.place = (0, ⟨1, 4⟩) ∧
        t'.place = (1, ⟨1, 5⟩) := by
  intro table imported ops
  have htable : table.Built := .run (by simp)
  have happended : ∀ other, .append other ∈ ops → Built other := by
    intro other hother
    obtain rfl : other = imported := by simpa [ops] using hother
    exact .run (by simp)
  obtain ⟨hbuilt, -, hkept, -⟩ := htable.run_exact happended
  have hbefore : (table.get? 2).map Token.place = some (0, ⟨1, 4⟩) := by decide +kernel
  have hafter : ((table.run ops).get? 2).map Token.place = some (1, ⟨1, 5⟩) := by decide +kernel
  obtain ⟨t, ht, hplace⟩ := Option.map_eq_some_iff.mp hbefore
  obtain ⟨t', ht', hindex, hwritten, hshown⟩ := hkept 2 t ht
  rw [ht'] at hafter
  exact ⟨htable, happended, hbuilt, by decide +kernel, t, t', ht, ht', hindex, hwritten, hshown,
    hplace, Option.some.inj hafter⟩

end TokenTable

end GrammarCompiler
