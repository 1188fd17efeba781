import Mathlib.Data.List.Nodup
import TypeCalculus.Proofs.Operations

namespace TypeCalculus

/-- Places that read the same are one place. -/
theorem Table.Indexed.place_unique {α : Type} [DecidableEq α] {table : Table α} (h : table.Indexed)
    {i j : Nat} {fallback : α} (hi : (table.get? i).isSome) (hj : (table.get? j).isSome)
    (he : (table.get? i).getD fallback = (table.get? j).getD fallback) : i = j := by
  obtain ⟨x, hx⟩ := Option.isSome_iff_exists.mp hi
  obtain ⟨y, hy⟩ := Option.isSome_iff_exists.mp hj
  rw [hx, hy, Option.getD_some, Option.getD_some] at he
  exact h.place_inj hx (he ▸ hy)

namespace Store

/-- The intrinsic types are where they belong, whatever the store holds is found again where it is,
and the first list of either kind is empty. -/
structure Shared (st : Store) : Prop where
  founded : st.Founded
  indexed : st.Indexed
  empty : st.lists.get? 0 = some []
  emptyTuple : st.tuples.get? 0 = some []

variable {st : Store}

theorem Shared.extended {st' : Store} (h : st.Shared) (he : st.Extends st') : st'.Shared where
  founded := he.founded h.founded
  indexed := he.indexed.mpr h.indexed
  empty := he.lists.get? h.empty
  emptyTuple := he.tuples.get? h.emptyTuple

/-- Every store that can be built finds again what it holds. -/
theorem Reached.shared (h : st.Reached) : st.Shared := by
  apply h.keeps (P := Shared)
  · exact ⟨Reached.initial.founded, indexed_initial, rfl, rfl⟩
  · exact fun he h => h.extended he
  · intro st t body hc h
    exact ⟨(widens_filled hc).founded h.founded, (indexed_filled hc).mpr h.indexed, h.empty,
      h.emptyTuple⟩

/-- A node is known by what it is made of. -/
theorem Shared.node_unique (h : st.Shared) {node other : Node} (hp : st.Placed node)
    (hq : st.Placed other) (hf : st.form node = st.form other) : node = other := by
  cases node <;> cases other <;> simp only [form, reduceCtorEq] at hf
  case union.union | intersection.intersection =>
    simp only [Form.union.injEq, Form.intersection.injEq] at hf
    rw [h.indexed.lists.place_unique hp hq hf]
  case wrapper.wrapper =>
    obtain ⟨hkind, hargs⟩ := Form.wrapper.inj hf
    rw [hkind, h.indexed.lists.place_unique hp hq hargs]
  case object.object => rw [h.indexed.shapes.place_unique hp hq (Form.object.inj hf)]
  case tuple.tuple => rw [h.indexed.tuples.place_unique hp hq (Form.tuple.inj hf)]
  case function.function | constructor.constructor =>
    simp only [Form.function.injEq, Form.constructor.injEq] at hf
    rw [h.indexed.signatures.place_unique hp hq hf]
  all_goals cases hf; rfl

/-- Where a node is after it was interned. -/
theorem Shared.cell_intern (h : st.Shared) (node : Node) :
    ((Store.intern node).run st).2.cells[((Store.intern node).run st).1]? =
    some (.interned node) := by
  by_cases hn : ∀ kind, node ≠ .intrinsic kind
  · exact Discipline.cell_intern hn ((extends_intern node st).indexed.mpr h.indexed)
  · simp only [ne_eq, not_forall, not_not] at hn
    obtain ⟨kind, rfl⟩ := hn
    exact h.founded kind

/-- A node that is there is interned where it is. -/
theorem Shared.intern_of_cell (h : st.Shared) {node : Node} {t : TypeId}
    (hc : st.cells[t]? = some (.interned node)) : (Store.intern node).run st = (t, st) := by
  by_cases hn : ∀ kind, node ≠ .intrinsic kind
  · rw [run_intern hn, (h.indexed.keys node t).mpr hc]
  · simp only [ne_eq, not_forall, not_not] at hn
    obtain ⟨kind, rfl⟩ := hn
    show (kind.id, st) = (t, st)
    rw [h.indexed.cell_inj hc (h.founded kind)]

theorem Shared.internList_empty (h : st.Shared) : (internList []).run st = (0, st) := by
  show ((st.lists.intern []).1, { st with lists := (st.lists.intern []).2 }) = (0, st)
  rw [h.indexed.lists.intern_of_get? h.empty]

theorem Shared.internSlots_empty (h : st.Shared) : (internSlots []).run st = (0, st) := by
  show ((st.tuples.intern []).1, { st with tuples := (st.tuples.intern []).2 }) = (0, st)
  rw [h.indexed.tuples.intern_of_get? h.emptyTuple]

end Store

namespace Operation

variable {st : Store}

theorem reached_afterAll (h : st.Reached) (ops : List Operation) : (afterAll st ops).Reached := by
  induction ops generalizing st with
  | nil => exact h
  | cons op ops ih => exact ih ((op.outcome_free st).reached h)

theorem appends_afterAll (st : Store) (ops : List Operation) : st.Appends (afterAll st ops) := by
  induction ops generalizing st with
  | nil => exact (Store.Extends.refl st).appends
  | cons op ops ih => exact (op.outcome_free st).appends.trans (ih _)

/-- Values are interned under numbers of their own: after whatever else is done, a number reads as
the value that was interned under it, and it is what that value, and no other, is interned under. -/
def Interns {α : Type} (intern : α → StoreM Nat) (read : Store → Nat → Option α) (st : Store) :
    Prop :=
  ∀ (value other : α) (ops : List Operation),
    let first := (intern value).run st
    let later := afterAll first.2 ops
    read later first.1 = some value ∧ (((intern other).run later).1 = first.1 ↔ other = value)

/-- A table gives every value a number of its own, for good. -/
theorem interns_table {α : Type} [DecidableEq α] {act : α → StoreM Nat} (read : Store → Table α)
    (hid : ∀ value st, ((act value).run st).1 = ((read st).intern value).1)
    (htable : ∀ value st, read ((act value).run st).2 = ((read st).intern value).2)
    (hreach : ∀ value {st : Store}, st.Reached → ((act value).run st).2.Reached)
    (hindexed : ∀ {st : Store}, st.Indexed → (read st).Indexed)
    (hkept : ∀ {st st' : Store}, st.Appends st' → ∀ {id value}, (read st).get? id = some value →
      (read st').get? id = some value)
    (h : st.Reached) : Interns act (fun st => (read st).get?) st := by
  intro value other ops first later
  have hlater : later.Reached := reached_afterAll (hreach value h) ops
  have hi : (read later).Indexed := hindexed hlater.shared.indexed
  have hfirst : (read first.2).get? first.1 = some value := by
    show (read ((act value).run st).2).get? ((act value).run st).1 = _
    rw [hid, htable]
    exact (hindexed h.shared.indexed).get?_intern value
  have hread : (read later).get? first.1 = some value := hkept (appends_afterAll first.2 ops) hfirst
  refine ⟨hread, fun he => ?_, fun he => ?_⟩
  · have hother := hi.get?_intern other
    have hvalue := (Table.extends_intern (read later) other).get? hread
    rw [← hid, he, hvalue] at hother
    exact (Option.some.inj hother).symm
  · rw [hid, he, hi.intern_of_get? hread]

theorem interns_nodes (h : st.Reached) : Interns Store.intern Store.lookup st := by
  intro value other ops first later
  have hlater : later.Reached := reached_afterAll (h.intern value) ops
  have hcell : later.cells[first.1]? = some (.interned value) :=
    (appends_afterAll first.2 ops).interned (h.shared.cell_intern value)
  refine ⟨(Store.interned_iff.mp hcell).1, fun he => ?_, fun he => ?_⟩
  · have hother := hlater.shared.cell_intern other
    have hvalue := (Store.extends_intern other later).widens.interned hcell
    rw [he, hvalue] at hother
    cases hother
    rfl
  · rw [he, hlater.shared.intern_of_cell hcell]

end Operation

/-- What hash consing is about. The keys and the interned cells go together one to one, and so do
the index and the values of every table; no node is interned twice, no placeholder has a key, and
what is interned gets a number of its own for good. -/
structure Store.HashConsed (st : Store) : Prop where
  indexed : st.Indexed
  once {node : Node} {t u : TypeId} : st.cells[t]? = some (.interned node) →
    st.cells[u]? = some (.interned node) → t = u
  keyless {t : TypeId} : st.isReserved t = true → ∀ node, st.keys.get? node ≠ some t
  intrinsic (kind : Intrinsic) : st.cells[kind.id]? = some (.interned (.intrinsic kind))
  unreserved (node : Node) :
    ((Store.intern node).run st).2.isReserved ((Store.intern node).run st).1 = false
  nodes : Operation.Interns Store.intern Store.lookup st
  lists : Operation.Interns Store.internList (fun st => st.lists.get?) st
  tuples : Operation.Interns Store.internSlots (fun st => st.tuples.get?) st
  shapes : Operation.Interns Store.internShape (fun st => st.shapes.get?) st
  signatures : Operation.Interns Store.internSignature (fun st => st.signatures.get?) st
  conditionals : Operation.Interns Store.internConditional (fun st => st.conditionals.get?) st
  mappings : Operation.Interns Store.internMapping (fun st => st.mappings.get?) st
  empty : (Store.internList []).run st = (0, st) ∧ (Store.internSlots []).run st = (0, st)

/-- Every store that users can come to have is hash-consed, whatever they do with it. -/
theorem Operation.hashConsed_afterAll (ops : List Operation) :
    (Operation.afterAll .initial ops).HashConsed := by
  have hreached := Operation.reached_afterAll .initial ops
  have hshared := hreached.shared
  generalize Operation.afterAll .initial ops = st at hreached hshared
  exact {
    indexed := hshared.indexed
    once := hshared.indexed.cell_inj
    keyless := fun hr node hk => by
      rw [(Store.interned_iff.mp ((hshared.indexed.keys node _).mp hk)).2] at hr
      cases hr
    intrinsic := hshared.founded
    unreserved := fun node => (Store.interned_iff.mp (hshared.cell_intern node)).2
    nodes := interns_nodes hreached
    lists := interns_table Store.lists (fun _ _ => rfl) (fun _ _ => rfl) (fun v _ => .internList v)
      (fun h => h.lists) (fun h => h.lists) hreached
    tuples := interns_table Store.tuples (fun _ _ => rfl) (fun _ _ => rfl)
      (fun v _ => .internSlots v)
      (fun h => h.tuples) (fun h => h.tuples) hreached
    shapes := interns_table Store.shapes (fun _ _ => rfl) (fun _ _ => rfl)
      (fun v _ => .internShape v)
      (fun h => h.shapes) (fun h => h.shapes) hreached
    signatures := interns_table Store.signatures (fun _ _ => rfl) (fun _ _ => rfl)
      (fun v _ => .internSignature v) (fun h => h.signatures) (fun h => h.signatures) hreached
    conditionals := interns_table Store.conditionals (fun _ _ => rfl) (fun _ _ => rfl)
      (fun v _ => .internConditional v) (fun h => h.conditionals) (fun h => h.conditionals) hreached
    mappings := interns_table Store.mappings (fun _ _ => rfl) (fun _ _ => rfl)
      (fun v _ => .internMapping v) (fun h => h.mappings) (fun h => h.mappings) hreached
    empty := ⟨hshared.internList_empty, hshared.internSlots_empty⟩ }

end TypeCalculus
