import TypeCalculus.Proofs.StoreInvariants

namespace TypeCalculus

open Store

def Node.isGroup : Node → Bool
  | .union _ | .intersection _ => true
  | _ => false

/-- Something that is asked of every node. Unions and intersections may be held to what was planned
for them. -/
structure NodeInvariant where
  At : Store → Node → Prop
  widens {st st' : Store} {node : Node} : st.Widens st' → At st node → At st' node
  union {st st' : Store} {types ms : List TypeId} {id : ListId} : st.unionPlan types = .inr ms →
    st'.lists.get? id = some ms → At st' (.union id)
  intersection {st st' : Store} {types ms : List TypeId} {id : ListId} :
    st.intersectionPlan types = .inr ms → st'.lists.get? id = some ms → At st' (.intersection id)
  other {st : Store} {node : Node} : st.Placed node → node.isGroup = false → At st node

namespace NodeInvariant

structure Holds (N : NodeInvariant) (st : Store) : Prop where
  indexed : st.Indexed
  node (t : TypeId) (node : Node) : st.lookup t = some node → N.At st node

theorem holds_initial (N : NodeInvariant) : N.Holds .initial := by
  refine ⟨indexed_initial, fun t node hl => ?_⟩
  obtain ⟨kind, rfl⟩ := lookup_initial hl
  exact N.other trivial rfl

namespace Holds

variable {N : NodeInvariant} {st : Store}

/-- New nodes have to be as they should be; the old ones stay so. -/
theorem extend (h : N.Holds st) {st' : Store} (hs : st.Extends st')
    (hnew : ∀ t node, st.size ≤ t → st'.lookup t = some node → N.At st' node) : N.Holds st' := by
  refine ⟨hs.indexed.mpr h.indexed, fun t node hl => ?_⟩
  rcases Nat.lt_or_ge t st.size with ht | ht
  · rw [hs.lookup ht] at hl
    exact N.widens hs.widens (h.node t node hl)
  · exact hnew t node ht hl

theorem ofTables (h : N.Holds st) {st' : Store} (hs : st.Extends st')
    (hcells : st'.cells = st.cells) :
    N.Holds st' := by
  apply h.extend hs
  intro t node ht hl
  cases (lookup_of_cells hcells ht).symm.trans hl

theorem intern (h : N.Holds st) (node : Node) (hnode : N.At st node) :
    N.Holds ((Store.intern node).run st).2 := by
  by_cases hn : ∀ kind, node ≠ .intrinsic kind
  · apply h.extend (extends_intern node st)
    intro t other ht hl
    obtain ⟨_, _, rfl⟩ := Discipline.intern_new hn ht hl
    exact N.widens (extends_intern _ st).widens hnode
  · simp only [ne_eq, not_forall, not_not] at hn
    obtain ⟨kind, rfl⟩ := hn
    exact h

theorem reserve (h : N.Holds st) : N.Holds (Store.reserve.run st).2 := by
  apply h.extend (extends_reserve st)
  intro t node ht hl
  cases (lookup_reserve ht).symm.trans hl

theorem filled (h : N.Holds st) {t : TypeId} {body : Node}
    (hc : st.cells[t]? = some (.reserved none)) (hbody : N.At st body) :
    N.Holds (st.filled t body) := by
  refine ⟨(indexed_filled hc).mpr h.indexed, fun u node hl => ?_⟩
  apply N.widens (widens_filled hc)
  by_cases hu : u = t
  · subst hu
    cases (filled_lookup hc).symm.trans hl
    exact hbody
  · rw [lookup, filled_cell_ne hu] at hl
    exact h.node u node hl

theorem copied (h : N.Holds st) {t : TypeId} (a : TypeId)
    (hc : st.cells[t]? = some (.reserved none)) :
    N.Holds (st.filled t ((st.lookup a).getD (.intrinsic .never))) := by
  apply h.filled hc
  cases hl : st.lookup a with
  | none => exact N.other trivial rfl
  | some node => exact h.node a node hl

theorem defineObject (h : N.Holds st) (t : TypeId) (shape : Shape) :
    N.Holds ((Store.defineObject t shape).run st).2 := by
  rw [defineObject_eq]
  split
  · exact h
  · have h₁ := h.ofTables (extends_internShape shape st) rfl
    show N.Holds ((define t (.object ((internShape shape).run st).1)).run
        ((internShape shape).run st).2).2
    rcases run_define t (.object ((internShape shape).run st).1) ((internShape shape).run st).2 with
      ⟨hc, hr⟩ | ⟨_, _, hr⟩
    · rw [hr]
      apply h₁.filled hc
      exact N.other (h.indexed.shapes.isSome_intern shape) rfl
    · rw [hr]
      exact h₁

theorem mkUnion (h : N.Holds st) (types : List TypeId) :
    N.Holds ((Store.mkUnion types).run st).2 := by
  rw [run_mkUnion]
  cases hp : st.unionPlan types with
  | inl t => exact h
  | inr ms =>
    exact (h.ofTables (extends_internList ms st) rfl).intern (.union _)
      (N.union hp (h.indexed.lists.get?_intern ms))

theorem mkIntersection (h : N.Holds st) (types : List TypeId) :
    N.Holds ((Store.mkIntersection types).run st).2 := by
  rw [run_mkIntersection]
  cases hp : st.intersectionPlan types with
  | inl t => exact h
  | inr ms =>
    exact (h.ofTables (extends_internList ms st) rfl).intern (.intersection _)
      (N.intersection hp (h.indexed.lists.get?_intern ms))

/-- Every form is put together out of nodes that are as they should be. -/
theorem build (h : N.Holds st) (f : Form) : N.Holds (f.build.run st).2 := by
  cases f with
  | intrinsic kind => exact h
  | literal value => exact h.intern (.literal value) (N.other trivial rfl)
  | union members => exact h.mkUnion members
  | intersection members => exact h.mkIntersection members
  | object shape =>
    exact (h.ofTables (extends_internShape shape st) rfl).intern (.object _)
      (N.other (h.indexed.shapes.isSome_intern shape) rfl)
  | array element => exact h.intern (.array element) (N.other trivial rfl)
  | tuple elements =>
    exact (h.ofTables (extends_internSlots elements st) rfl).intern (.tuple _)
      (N.other (h.indexed.tuples.isSome_intern elements) rfl)
  | function s =>
    exact (h.ofTables (extends_internSignature s st) rfl).intern (.function _)
      (N.other (h.indexed.signatures.isSome_intern s) rfl)
  | constructor s =>
    exact (h.ofTables (extends_internSignature { params := s.params, result := s.result } st)
      rfl).intern (.constructor _) (N.other (h.indexed.signatures.isSome_intern _) rfl)
  | wrapper kind args =>
    exact (h.ofTables (extends_internList args st) rfl).intern (.wrapper kind _)
      (N.other (h.indexed.lists.isSome_intern args) rfl)
  | infer name => exact h.intern (.infer name) (N.other trivial rfl)
  | param name => exact h.intern (.param name) (N.other trivial rfl)

end Holds

def storeInvariant (N : NodeInvariant) : StoreInvariant where
  Good := N.Holds
  Fit _ _ := True
  later _ _ := trivial
  child _ _ _ := trivial
  intrinsic _ _ := trivial
  part _ _ := ⟨trivial, trivial, trivial⟩
  build {_ f} h _ := ⟨h.build f, trivial⟩
  conditional h _ _ _ := h.ofTables (extends_internConditional _ _) rfl
  mapping m h := h.ofTables (extends_internMapping m _) rfl
  reserve h := ⟨h.reserve, trivial⟩
  fill a h hc := h.copied a hc
  define t h _ := h.defineObject t _

end NodeInvariant

def Operation.isRaw : Operation → Bool
  | .intern _ | .define _ _ => true
  | _ => false

namespace NodeInvariant

variable {N : NodeInvariant} {st : Store}

theorem Holds.after (h : N.Holds st) {op : Operation} (hop : op.isRaw = false) :
    N.Holds (op.after st) := by
  apply StoreInvariant.good_after (I := N.storeInvariant) h op
  cases op with
  | intern node => cases hop
  | define t body => cases hop
  | build c => exact fun _ _ => trivial
  | bind => exact ⟨fun _ _ _ => trivial, trivial⟩
  | matching => exact ⟨trivial, trivial⟩
  | substitute => exact ⟨⟨h, fun _ _ _ => trivial, fun _ _ _ => trivial, fun _ => trivial⟩, trivial⟩
  | evaluate => exact ⟨⟨h, fun _ _ => trivial⟩, fun _ _ => trivial⟩
  | render => trivial

/-- Unless users intern nodes as they like, every node is as it should be. -/
theorem holds_afterAll (h : N.Holds st) {ops : List Operation}
    (hops : ∀ op ∈ ops, op.isRaw = false) :
    N.Holds (Operation.afterAll st ops) := by
  induction ops generalizing st with
  | nil => exact h
  | cons op ops ih =>
    exact ih (h.after (hops op List.mem_cons_self)) fun op hm => hops op (List.mem_cons_of_mem _ hm)

end NodeInvariant

end TypeCalculus
