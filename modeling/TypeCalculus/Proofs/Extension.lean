import TypeCalculus.Proofs.Actions
import TypeCalculus.Proofs.Reachability

namespace TypeCalculus

namespace Table

variable {α : Type} [DecidableEq α] {table table' : Table α} {value : α}

structure Extends (table table' : Table α) : Prop where
  items : table.items <+: table'.items
  index {value : α} {place : Nat} : table.index.get? value = some place →
    table'.index.get? value = some place

theorem Extends.refl (table : Table α) : table.Extends table := ⟨List.prefix_rfl, id⟩

theorem Extends.trans {table'' : Table α} (h : table.Extends table') (h' : table'.Extends table'') :
    table.Extends table'' :=
  ⟨h.items.trans h'.items, fun hv => h'.index (h.index hv)⟩

theorem Extends.get? (h : table.Extends table') {place : Nat} (hv : table.get? place = some value) :
    table'.get? place = some value := by
  obtain ⟨rest, hrest⟩ := h.items
  obtain ⟨hlt, _⟩ := List.getElem?_eq_some_iff.mp hv
  unfold Table.get?
  rw [← hrest, List.getElem?_append_left hlt]
  exact hv

theorem extends_intern (table : Table α) (value : α) : table.Extends (table.intern value).2 := by
  unfold intern
  split
  · exact .refl table
  · rename_i hnew
    refine ⟨List.prefix_append _ _, fun {other place} hv => ?_⟩
    show (table.index.insert value table.items.length).get? other = some place
    rw [Dict.get?_insert]
    split
    · rename_i hsame
      rw [hsame, hnew] at hv
      cases hv
    · exact hv

theorem mem_intern {item : α} (h : item ∈ (table.intern value).2.items) :
    item ∈ table.items ∨ item = value := by
  unfold intern at h
  split at h
  · exact .inl h
  · simpa [add] using h

theorem Indexed.isSome_intern (h : table.Indexed) (value : α) :
    ((table.intern value).2.get? (table.intern value).1).isSome = true := by
  rw [h.get?_intern]
  rfl

/-- Interning a value again finds it at its place. -/
theorem intern_again (h : (table.intern value).2.Extends table') :
    table'.intern value = ((table.intern value).1, table') := by
  rw [intern, h.index (index_intern table value)]

end Table

def Node.isContainer : Node → Bool
  | .object _ | .array _ | .tuple _ => true
  | _ => false

namespace Store

/-- The keys and the interned cells go together one to one, and so do the index and the values of
each table. -/
structure Indexed (st : Store) : Prop where
  keys (node : Node) (t : TypeId) :
    st.keys.get? node = some t ↔ st.cells[t]? = some (.interned node)
  lists : st.lists.Indexed
  tuples : st.tuples.Indexed
  shapes : st.shapes.Indexed
  signatures : st.signatures.Indexed
  conditionals : st.conditionals.Indexed
  mappings : st.mappings.Indexed

theorem indexed_initial : initial.Indexed where
  keys node t := by
    have hcell : initial.cells[t]? = (Intrinsic.ofId? t).map fun kind =>
        .interned (.intrinsic kind) :=
      List.getElem?_map ..
    rw [hcell, Option.map_eq_some_iff]
    simp only [Intrinsic.ofId?_eq_some, Cell.interned.injEq]
    cases node with
    | intrinsic kind =>
      have hkey : initial.keys.get? (.intrinsic kind) = some kind.id := by cases kind <;> rfl
      simp [hkey, eq_comm]
    | _ =>
      constructor
      · intro h
        cases h
      · rintro ⟨_, _, h⟩
        cases h
  lists := (Table.indexed_add rfl).mpr Table.indexed_empty
  tuples := (Table.indexed_add rfl).mpr Table.indexed_empty
  shapes := Table.indexed_empty
  signatures := Table.indexed_empty
  conditionals := Table.indexed_empty
  mappings := Table.indexed_empty

/-- A node is interned in one cell. -/
theorem Indexed.cell_inj {st : Store} (h : st.Indexed) {node : Node} {t u : TypeId}
    (ht : st.cells[t]? = some (.interned node)) (hu : st.cells[u]? = some (.interned node)) :
    t = u :=
  Option.some.inj (((h.keys node t).mpr ht).symm.trans ((h.keys node u).mpr hu))

/-- Stores of the same tables are indexed alike if their keys and cells are. -/
theorem indexed_congr {st : Store} {cells : List Cell} {keys : Dict Node TypeId}
    (h : ∀ node t, (keys.get? node = some t ↔ cells[t]? = some (.interned node)) ↔
      (st.keys.get? node = some t ↔ st.cells[t]? = some (.interned node))) :
    { st with cells, keys }.Indexed ↔ st.Indexed :=
  ⟨fun hi => { hi with keys := fun node t => (h node t).mp (hi.keys node t) },
    fun hi => { hi with keys := fun node t => (h node t).mpr (hi.keys node t) }⟩

theorem getElem?_append_cell (st : Store) (cell : Cell) (t : TypeId) :
    (st.cells ++ [cell])[t]? = if t = st.size then some cell else st.cells[t]? := by
  rcases Nat.lt_trichotomy t st.cells.length with hlt | rfl | hgt
  · rw [List.getElem?_append_left hlt, if_neg (Nat.ne_of_lt hlt : t ≠ st.size)]
  · simp [size]
  · rw [if_neg (Nat.ne_of_gt hgt : t ≠ st.size), List.getElem?_eq_none (Nat.le_of_lt hgt)]
    exact List.getElem?_eq_none (by simpa using Nat.succ_le_of_lt hgt)

/-- A new node with its key keeps the keys and the cells in step. -/
theorem indexed_add {st : Store} {node : Node} (hnew : st.keys.get? node = none) :
    (st.add node).Indexed ↔ st.Indexed := by
  apply indexed_congr
  intro other t
  have hend : st.cells[st.size]? = none := List.getElem?_eq_none (Nat.le_refl _)
  rw [getElem?_append_cell, Dict.get?_insert]
  by_cases hother : other = node
  · by_cases ht : t = st.size
    · simp [hother, ht, hnew, hend]
    · simp [hother, ht, Ne.symm ht, hnew]
  · by_cases ht : t = st.size
    · simp [hother, Ne.symm hother, ht, hend]
    · simp [hother, ht]

theorem indexed_reserve {st : Store} : (reserve.run st).2.Indexed ↔ st.Indexed := by
  apply indexed_congr
  intro node t
  have hend : st.cells[st.size]? = none := List.getElem?_eq_none (Nat.le_refl _)
  rw [getElem?_append_cell]
  by_cases ht : t = st.size
  · simp [ht, hend]
  · rw [if_neg ht]

structure Extends (st st' : Store) : Prop where
  cells : st.cells <+: st'.cells
  keys {node : Node} {t : TypeId} : st.keys.get? node = some t → st'.keys.get? node = some t
  lists : st.lists.Extends st'.lists
  tuples : st.tuples.Extends st'.tuples
  shapes : st.shapes.Extends st'.shapes
  signatures : st.signatures.Extends st'.signatures
  conditionals : st.conditionals.Extends st'.conditionals
  mappings : st.mappings.Extends st'.mappings
  indexed : st'.Indexed ↔ st.Indexed

namespace Extends

variable {st st' : Store}

theorem refl (st : Store) : st.Extends st :=
  ⟨List.prefix_rfl, id, .refl _, .refl _, .refl _, .refl _, .refl _, .refl _, Iff.rfl⟩

theorem trans {a b c : Store} (h : a.Extends b) (h' : b.Extends c) : a.Extends c where
  cells := h.cells.trans h'.cells
  keys hk := h'.keys (h.keys hk)
  lists := h.lists.trans h'.lists
  tuples := h.tuples.trans h'.tuples
  shapes := h.shapes.trans h'.shapes
  signatures := h.signatures.trans h'.signatures
  conditionals := h.conditionals.trans h'.conditionals
  mappings := h.mappings.trans h'.mappings
  indexed := h'.indexed.trans h.indexed

theorem size (h : st.Extends st') : st.size ≤ st'.size := h.cells.length_le

/-- In an extension every cell is still where it was. -/
theorem cell (h : st.Extends st') {t : TypeId} (ht : t < st.size) :
    st'.cells[t]? = st.cells[t]? := by
  obtain ⟨rest, hrest⟩ := h.cells
  rw [← hrest, List.getElem?_append_left ht]

/-- What a type of the store holds it holds in every extension. -/
theorem lookup (h : st.Extends st') {t : TypeId} (ht : t < st.size) :
    st'.lookup t = st.lookup t := by
  rw [Store.lookup, Store.lookup, h.cell ht]

theorem isReserved (h : st.Extends st') {t : TypeId} (ht : t < st.size) :
    st'.isReserved t = st.isReserved t := by
  rw [Store.isReserved, Store.isReserved, h.cell ht]

theorem founded (h : st.Extends st') (hf : st.Founded) : st'.Founded := by
  intro kind
  obtain ⟨hlt, _⟩ := List.getElem?_eq_some_iff.mp (hf kind)
  rw [h.cell hlt]
  exact hf kind

end Extends

/-- Interning finds the node by its key or adds it at the end. -/
theorem run_intern {node : Node} (hn : ∀ kind, node ≠ .intrinsic kind) (st : Store) :
    (intern node).run st = match st.keys.get? node with
      | some t => (t, st)
      | none => (st.size, st.add node) := by
  cases node with
  | intrinsic kind => exact absurd rfl (hn kind)
  | _ => rfl

theorem extends_add {st : Store} {node : Node} (hnew : st.keys.get? node = none) :
    st.Extends (st.add node) := by
  refine { Extends.refl st with
    cells := List.prefix_append _ _
    keys := fun {other t} hk => ?_
    indexed := indexed_add hnew }
  show (st.keys.insert node st.size).get? other = some t
  rw [Dict.get?_insert]
  split
  · rename_i hsame
    rw [hsame, hnew] at hk
    cases hk
  · exact hk

theorem extends_intern (node : Node) (st : Store) : st.Extends ((intern node).run st).2 := by
  by_cases hn : ∀ kind, node ≠ .intrinsic kind
  · rw [run_intern hn]
    split
    · exact .refl st
    · rename_i hnew
      exact extends_add hnew
  · simp only [ne_eq, not_forall, not_not] at hn
    obtain ⟨kind, rfl⟩ := hn
    exact .refl st

/-- Once interned, a node is known by its key. -/
theorem keys_intern {node : Node} (hn : ∀ kind, node ≠ .intrinsic kind) (st : Store) :
    ((intern node).run st).2.keys.get? node = some ((intern node).run st).1 := by
  rw [run_intern hn]
  split
  · assumption
  · simp [add, Dict.get?_insert]

theorem extends_internList (members : List TypeId) (st : Store) :
    st.Extends ((internList members).run st).2 :=
  { Extends.refl st with
    lists := Table.extends_intern st.lists members
    indexed := ⟨fun hi => { hi with lists := (Table.indexed_intern members).mp hi.lists },
      fun hi => { hi with lists := (Table.indexed_intern members).mpr hi.lists }⟩ }

theorem extends_internSlots (slots : List Slot) (st : Store) :
    st.Extends ((internSlots slots).run st).2 :=
  { Extends.refl st with
    tuples := Table.extends_intern st.tuples slots
    indexed := ⟨fun hi => { hi with tuples := (Table.indexed_intern slots).mp hi.tuples },
      fun hi => { hi with tuples := (Table.indexed_intern slots).mpr hi.tuples }⟩ }

theorem extends_internShape (shape : Shape) (st : Store) :
    st.Extends ((internShape shape).run st).2 :=
  { Extends.refl st with
    shapes := Table.extends_intern st.shapes shape
    indexed := ⟨fun hi => { hi with shapes := (Table.indexed_intern shape).mp hi.shapes },
      fun hi => { hi with shapes := (Table.indexed_intern shape).mpr hi.shapes }⟩ }

theorem extends_internSignature (signature : Signature) (st : Store) :
    st.Extends ((internSignature signature).run st).2 :=
  { Extends.refl st with
    signatures := Table.extends_intern st.signatures signature
    indexed :=
      ⟨fun hi => { hi with signatures := (Table.indexed_intern signature).mp hi.signatures },
      fun hi => { hi with signatures := (Table.indexed_intern signature).mpr hi.signatures }⟩ }

theorem extends_internConditional (conditional : Conditional) (st : Store) :
    st.Extends ((internConditional conditional).run st).2 :=
  { Extends.refl st with
    conditionals := Table.extends_intern st.conditionals conditional
    indexed :=
      ⟨fun hi => { hi with conditionals := (Table.indexed_intern conditional).mp hi.conditionals },
      fun hi =>
        { hi with conditionals := (Table.indexed_intern conditional).mpr hi.conditionals }⟩ }

theorem extends_internMapping (mapping : Mapping) (st : Store) :
    st.Extends ((internMapping mapping).run st).2 :=
  { Extends.refl st with
    mappings := Table.extends_intern st.mappings mapping
    indexed := ⟨fun hi => { hi with mappings := (Table.indexed_intern mapping).mp hi.mappings },
      fun hi => { hi with mappings := (Table.indexed_intern mapping).mpr hi.mappings }⟩ }

theorem extends_reserve (st : Store) : st.Extends (reserve.run st).2 :=
  { Extends.refl st with
    cells := List.prefix_append _ _
    indexed := indexed_reserve }

/-- Defining either fails and changes nothing, or fills an empty placeholder. -/
theorem define_eq (t : TypeId) (body : Node) (st : Store) :
    (define t body).run st = match st.cells[t]? with
      | none => (.error (.unknown t), st)
      | some (.interned _) => (.error (.notReserved t), st)
      | some (.reserved (some _)) => (.error (.alreadyDefined t), st)
      | some (.reserved none) =>
        (.ok (), { st with cells := st.cells.set t (.reserved (some body)) }) :=
  rfl

/-- Giving a placeholder its body is the one change in place. -/
theorem run_define (t : TypeId) (body : Node) (st : Store) :
    st.cells[t]? = some (.reserved none) ∧ (define t body).run st =
        (.ok (), { st with cells := st.cells.set t (.reserved (some body)) }) ∨
      st.cells[t]? ≠ some (.reserved none) ∧
        ∃ error, (define t body).run st = (.error error, st) := by
  rw [define_eq]
  split
  · exact .inr ⟨by simp [*], _, rfl⟩
  · exact .inr ⟨by simp [*], _, rfl⟩
  · exact .inr ⟨by simp [*], _, rfl⟩
  · exact .inl ⟨by assumption, rfl⟩

/-- Interned cells and table entries are still where they were, and placeholders are still
placeholders, whatever became of their bodies. -/
structure Widens (st st' : Store) : Prop where
  interned {t : TypeId} {node : Node} : st.cells[t]? = some (.interned node) →
    st'.cells[t]? = some (.interned node)
  reserved {t : TypeId} : st.isReserved t = true → st'.isReserved t = true
  keys {node : Node} {t : TypeId} : st.keys.get? node = some t → st'.keys.get? node = some t
  lists : st.lists.Extends st'.lists
  tuples : st.tuples.Extends st'.tuples
  shapes : st.shapes.Extends st'.shapes
  signatures : st.signatures.Extends st'.signatures

theorem Extends.widens {st st' : Store} (h : st.Extends st') : st.Widens st' where
  interned {t node} hc := by
    obtain ⟨hlt, _⟩ := List.getElem?_eq_some_iff.mp hc
    rw [h.cell hlt, hc]
  reserved {t} hr := by
    have hlt : t < st.size := by
      apply Nat.lt_of_not_le
      intro hle
      simp [Store.isReserved, List.getElem?_eq_none hle] at hr
    rw [h.isReserved hlt, hr]
  keys := h.keys
  lists := h.lists
  tuples := h.tuples
  shapes := h.shapes
  signatures := h.signatures

namespace Widens

variable {st st' : Store}

theorem refl (st : Store) : st.Widens st := (Extends.refl st).widens

theorem trans {a b c : Store} (h : a.Widens b) (h' : b.Widens c) : a.Widens c where
  interned hc := h'.interned (h.interned hc)
  reserved hr := h'.reserved (h.reserved hr)
  keys hk := h'.keys (h.keys hk)
  lists := h.lists.trans h'.lists
  tuples := h.tuples.trans h'.tuples
  shapes := h.shapes.trans h'.shapes
  signatures := h.signatures.trans h'.signatures

theorem founded (h : st.Widens st') (hf : st.Founded) : st'.Founded :=
  fun kind => h.interned (hf kind)

end Widens

/-- A store that grows may give bodies to empty placeholders, but no others than objects, arrays and
tuples. -/
structure Grows (st st' : Store) : Prop where
  cell {t : TypeId} {cell : Cell} : st.cells[t]? = some cell → st'.cells[t]? = some cell ∨
    cell = .reserved none ∧
      ∃ body, st'.cells[t]? = some (.reserved (some body)) ∧ body.isContainer = true
  keys {node : Node} {t : TypeId} : st.keys.get? node = some t → st'.keys.get? node = some t
  lists : st.lists.Extends st'.lists
  tuples : st.tuples.Extends st'.tuples
  shapes : st.shapes.Extends st'.shapes
  signatures : st.signatures.Extends st'.signatures

theorem Extends.grows {st st' : Store} (h : st.Extends st') : st.Grows st' where
  cell {t cell} hc := by
    obtain ⟨hlt, _⟩ := List.getElem?_eq_some_iff.mp hc
    exact .inl ((h.cell hlt).trans hc)
  keys := h.keys
  lists := h.lists
  tuples := h.tuples
  shapes := h.shapes
  signatures := h.signatures

namespace Grows

variable {st st' : Store}

theorem trans {a b c : Store} (h : a.Grows b) (h' : b.Grows c) : a.Grows c where
  cell hc := by
    rcases h.cell hc with hb | ⟨rfl, body, hb, hk⟩
    · exact h'.cell hb
    · rcases h'.cell hb with hc' | ⟨he, _⟩
      · exact .inr ⟨rfl, body, hc', hk⟩
      · cases he
  keys hk := h'.keys (h.keys hk)
  lists := h.lists.trans h'.lists
  tuples := h.tuples.trans h'.tuples
  shapes := h.shapes.trans h'.shapes
  signatures := h.signatures.trans h'.signatures

theorem size (h : st.Grows st') : st.size ≤ st'.size := by
  refine Nat.le_of_not_lt fun hlt => ?_
  have hc : st.cells[st'.size]? = some st.cells[st'.size] := List.getElem?_eq_getElem hlt
  have hn : st'.cells[st'.size]? = none := List.getElem?_eq_none (Nat.le_refl _)
  rcases h.cell hc with h | ⟨_, _, h, _⟩ <;> simp [hn] at h

theorem lookup (h : st.Grows st') {t : TypeId} {node : Node} (hn : st.lookup t = some node) :
    st'.lookup t = some node := by
  obtain ⟨cell, hc, hb⟩ := Option.bind_eq_some_iff.mp hn
  rcases h.cell hc with hc' | ⟨rfl, _⟩
  · simp [Store.lookup, hc', hb]
  · cases hb

/-- What had no body may have got a container for it. -/
theorem lookup_none (h : st.Grows st') {t : TypeId} (ht : t < st.size) (hn : st.lookup t = none) :
    st'.lookup t = none ∨ ∃ body, st'.lookup t = some body ∧ body.isContainer = true := by
  have hc : st.cells[t]? = some st.cells[t] := List.getElem?_eq_getElem ht
  rcases h.cell hc with hc' | ⟨_, body, hc', hk⟩
  · refine .inl ?_
    rw [← hn, Store.lookup, Store.lookup, hc, hc']
  · exact .inr ⟨body, by simp [Store.lookup, hc', Cell.node?], hk⟩

theorem widens (h : st.Grows st') : st.Widens st' where
  interned hc := by
    rcases h.cell hc with hc' | ⟨he, _⟩
    · exact hc'
    · cases he
  reserved {t} hr := by
    unfold isReserved at hr
    split at hr
    · rename_i hc
      rcases h.cell hc with hc' | ⟨_, _, hc', _⟩ <;> simp [isReserved, hc']
    · cases hr
  keys := h.keys
  lists := h.lists
  tuples := h.tuples
  shapes := h.shapes
  signatures := h.signatures

end Grows

end Store

end TypeCalculus
