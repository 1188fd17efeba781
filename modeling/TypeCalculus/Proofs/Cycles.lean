import TypeCalculus.Proofs.StoreInvariants

namespace TypeCalculus

namespace Store

variable {st : Store}

def Supplied (st : Store) (node : Node) : Prop :=
  st.Placed node ∧ ∀ element, node = .array element → element < st.size

/-- The tables, too, mention no other types than those of the store. -/
structure Stocked (st : Store) : Prop extends st.Anchored where
  lists {members : List TypeId} : members ∈ st.lists.items → ∀ c ∈ members, c < st.size
  tuples {slots : List Slot} : slots ∈ st.tuples.items → ∀ c ∈ slots.map Slot.type, c < st.size
  shapes {shape : Shape} : shape ∈ st.shapes.items → ∀ c ∈ shape.types, c < st.size
  signatures {signature : Signature} : signature ∈ st.signatures.items →
    ∀ c ∈ (Form.function signature).mentions, c < st.size

theorem stocked_initial : Store.initial.Stocked where
  toAnchored := wellFormed_initial.anchored
  lists h := by
    rw [List.mem_singleton.mp h]
    exact fun _ hc => by cases hc
  tuples h := by
    rw [List.mem_singleton.mp h]
    exact fun _ hc => by cases hc
  shapes h := by cases h
  signatures h := by cases h

namespace Stocked

/-- What a node mentions it mentions through what it refers to. -/
theorem children (h : st.Stocked) {node : Node} (hs : st.Supplied node) :
    ∀ c ∈ st.children node, c < st.size := by
  obtain ⟨hp, harray⟩ := hs
  intro c hc
  have list {id : ListId} (hid : (st.lists.get? id).isSome) (hc : c ∈ st.list id) :
      c < st.size := by
    obtain ⟨members, hm⟩ := Option.isSome_iff_exists.mp hid
    rw [Store.list, hm] at hc
    exact h.lists (List.mem_of_getElem? hm) c hc
  have signature {id : SignatureId} (hid : (st.signatures.get? id).isSome)
      (hc : c ∈ (Form.function (st.signature id)).mentions) : c < st.size := by
    obtain ⟨signature, hm⟩ := Option.isSome_iff_exists.mp hid
    rw [Store.signature, hm] at hc
    exact h.signatures (List.mem_of_getElem? hm) c hc
  cases node with
  | intrinsic kind => cases hc
  | literal value => cases hc
  | infer name => cases hc
  | param name => cases hc
  | union id => exact list hp hc
  | intersection id => exact list hp hc
  | wrapper kind id => exact list hp hc
  | object id =>
    obtain ⟨shape, hm⟩ := Option.isSome_iff_exists.mp hp
    rw [Store.children, Store.shape, hm] at hc
    exact h.shapes (List.mem_of_getElem? hm) c hc
  | array element => exact List.mem_singleton.mp hc ▸ harray element rfl
  | tuple id =>
    obtain ⟨slots, hm⟩ := Option.isSome_iff_exists.mp hp
    rw [Store.children, Store.slots, hm] at hc
    exact h.tuples (List.mem_of_getElem? hm) c hc
  | function id => exact signature hp hc
  | constructor id => exact signature hp hc

/-- More types make no difference to the tables. -/
theorem moved (h : st.Stocked) {st' : Store} (ha : st'.Anchored) (hsize : st.size ≤ st'.size)
    (htables : st' = { st with cells := st'.cells, keys := st'.keys }) : st'.Stocked := by
  rw [htables] at ha hsize ⊢
  exact ⟨ha, fun hm c hc => Nat.lt_of_lt_of_le (h.lists hm c hc) hsize,
    fun hm c hc => Nat.lt_of_lt_of_le (h.tuples hm c hc) hsize,
    fun hm c hc => Nat.lt_of_lt_of_le (h.shapes hm c hc) hsize,
    fun hm c hc => Nat.lt_of_lt_of_le (h.signatures hm c hc) hsize⟩

theorem internList (h : st.Stocked) {members : List TypeId} (hc : ∀ c ∈ members, c < st.size) :
    ((Store.internList members).run st).2.Stocked where
  toAnchored := h.ofTables (extends_internList members st) rfl fun _ hm => .inl hm
  lists hm := by
    rcases Table.mem_intern hm with hm | rfl
    · exact h.lists hm
    · exact hc
  tuples := h.tuples
  shapes := h.shapes
  signatures := h.signatures

theorem internSlots (h : st.Stocked) {slots : List Slot}
    (hc : ∀ c ∈ slots.map Slot.type, c < st.size) :
    ((Store.internSlots slots).run st).2.Stocked where
  toAnchored := h.ofTables (extends_internSlots slots st) rfl fun _ hm => .inl hm
  lists := h.lists
  tuples hm := by
    rcases Table.mem_intern hm with hm | rfl
    · exact h.tuples hm
    · exact hc
  shapes := h.shapes
  signatures := h.signatures

theorem internShape (h : st.Stocked) {shape : Shape} (hc : ∀ c ∈ shape.types, c < st.size) :
    ((Store.internShape shape).run st).2.Stocked where
  toAnchored := h.ofTables (extends_internShape shape st) rfl fun _ hm => .inl hm
  lists := h.lists
  tuples := h.tuples
  shapes hm := by
    rcases Table.mem_intern hm with hm | rfl
    · exact h.shapes hm
    · exact hc
  signatures := h.signatures

theorem internSignature (h : st.Stocked) {signature : Signature}
    (hc : ∀ c ∈ (Form.function signature).mentions, c < st.size) :
    ((Store.internSignature signature).run st).2.Stocked where
  toAnchored := h.ofTables (extends_internSignature signature st) rfl fun _ hm => .inl hm
  lists := h.lists
  tuples := h.tuples
  shapes := h.shapes
  signatures hm := by
    rcases Table.mem_intern hm with hm | rfl
    · exact h.signatures hm
    · exact hc

theorem internConditional (h : st.Stocked) {c : Conditional} (hp : c.pattern < st.size)
    (hy : c.yes < st.size) (hn : c.no < st.size) :
    ((Store.internConditional c).run st).2.Stocked := by
  refine ⟨h.ofTables (extends_internConditional c st) rfl fun c' hm => ?_, h.lists,
    h.tuples, h.shapes, h.signatures⟩
  rcases Table.mem_intern hm with hm | rfl
  · exact .inl hm
  · exact .inr ⟨hp, hy, hn⟩

theorem internMapping (h : st.Stocked) (m : Mapping) : ((Store.internMapping m).run st).2.Stocked :=
  ⟨h.ofTables (extends_internMapping m st) rfl fun _ hm => .inl hm, h.lists, h.tuples, h.shapes,
    h.signatures⟩

theorem intrinsic_lt (h : st.Stocked) {t : TypeId} (ht : t.isIntrinsic = true) : t < st.size := by
  obtain ⟨kind, rfl⟩ := TypeId.isIntrinsic_iff.mp ht
  exact (h.founded.solid kind).lt_size

/-- A node whose references are there becomes a type of the store. -/
theorem intern (h : st.Stocked) (node : Node) (hs : st.Supplied node) :
    ((Store.intern node).run st).2.Stocked ∧
      ((Store.intern node).run st).1 < ((Store.intern node).run st).2.size := by
  by_cases hn : ∀ kind, node ≠ .intrinsic kind
  · have ha := Discipline.anchored_intern hn h.toAnchored hs.1 (h.children hs)
    refine ⟨h.moved ha (extends_intern node st).size (Discipline.intern_tables hn st), ?_⟩
    exact (List.getElem?_eq_some_iff.mp (Discipline.cell_intern hn ha.indexed)).1
  · simp only [ne_eq, not_forall, not_not] at hn
    obtain ⟨kind, rfl⟩ := hn
    exact ⟨h, h.intrinsic_lt (TypeId.isIntrinsic_iff.mpr ⟨kind, rfl⟩)⟩

theorem reserve (h : st.Stocked) : (Store.reserve.run st).2.Stocked :=
  h.moved h.toAnchored.reserve (extends_reserve st).size rfl

theorem filled (h : st.Stocked) {t : TypeId} {body : Node}
    (hc : st.cells[t]? = some (.reserved none)) (hp : st.Placed body)
    (hm : ∀ c ∈ st.children body, c < st.size) : (st.filled t body).Stocked :=
  h.moved (h.toAnchored.filled hc hp hm) (Nat.le_of_eq filled_size.symm) rfl

theorem define (h : st.Stocked) (t : TypeId) {body : Node} (hs : st.Supplied body) :
    ((Store.define t body).run st).2.Stocked := by
  rcases run_define t body st with ⟨hc, hr⟩ | ⟨_, _, hr⟩
  · rw [hr]
    exact h.filled hc hs.1 (h.children hs)
  · rw [hr]
    exact h

theorem defineObject (h : st.Stocked) (t : TypeId) {shape : Shape}
    (hc : ∀ c ∈ shape.types, c < st.size) :
    ((Store.defineObject t shape).run st).2.Stocked := by
  rw [defineObject_eq]
  split
  · exact h
  · apply (h.internShape hc).define t
    exact ⟨h.indexed.shapes.isSome_intern shape, fun _ he => by cases he⟩

/-- A union or an intersection, whose members are found in the store. -/
theorem planned (h : st.Stocked) {act : StoreM TypeId} {plan : TypeId ⊕ List TypeId}
    {make : ListId → Node} (hrun : act.run st = match plan with
      | .inl t => (t, st)
      | .inr ms => (Store.internList ms >>= fun id => Store.intern (make id)).run st)
    (hmake : ∀ (st : Store) id ms, st.lists.get? id = some ms → st.Supplied (make id))
    (hold : ∀ t, plan = .inl t → t < st.size)
    (hnew : ∀ ms, plan = .inr ms → ∀ m ∈ ms, m < st.size) :
    (act.run st).2.Stocked ∧ (act.run st).1 < (act.run st).2.size := by
  rw [hrun]
  cases hp : plan with
  | inl t => exact ⟨h, hold t hp⟩
  | inr ms =>
    exact (h.internList (hnew ms hp)).intern _ (hmake _ _ ms (h.indexed.lists.get?_intern ms))

theorem mkUnion (h : st.Stocked) {types : List TypeId} (ht : ∀ t ∈ types, t < st.size) :
    ((Store.mkUnion types).run st).2.Stocked ∧
      ((Store.mkUnion types).run st).1 < ((Store.mkUnion types).run st).2.size := by
  have hkept {m : TypeId} (hm : m ∈ st.kept types) : m < st.size := by
    obtain ⟨t, hmem, hm⟩ := (st.mem_flat types).mp (st.mem_kept_flat types hm)
    rcases mem_unionMembers hm with rfl | hm
    · exact ht m hmem
    · exact h.inside hm
  apply h.planned (run_mkUnion st types)
  · intro st id ms hid
    exact ⟨Option.isSome_iff_exists.mpr ⟨ms, hid⟩, fun _ he => by cases he⟩
  · intro t hp
    rcases unionPlan_old hp with hi | hm
    · exact h.intrinsic_lt hi
    · exact hkept hm
  · intro ms hp m hm
    obtain ⟨rfl, _⟩ := unionPlan_inr hp
    exact hkept hm

theorem mkIntersection (h : st.Stocked) {types : List TypeId} (ht : ∀ t ∈ types, t < st.size) :
    ((Store.mkIntersection types).run st).2.Stocked ∧
      ((Store.mkIntersection types).run st).1 < ((Store.mkIntersection types).run st).2.size := by
  have hcrossed {m : TypeId} (hm : m ∈ st.crossed types) : m < st.size := by
    have hm := (mem_crossed hm).1
    rw [mem_ascending, List.mem_flatMap] at hm
    obtain ⟨t, hmem, hm⟩ := hm
    rcases mem_intersectionMembers hm with rfl | hm
    · exact ht m hmem
    · exact h.inside hm
  apply h.planned (run_mkIntersection st types)
  · intro st id ms hid
    exact ⟨Option.isSome_iff_exists.mpr ⟨ms, hid⟩, fun _ he => by cases he⟩
  · intro t hp
    rcases intersectionPlan_inl hp with hi | hm
    · exact h.intrinsic_lt hi
    · exact hcrossed hm
  · intro ms hp m hm
    obtain ⟨_, _, rfl, _⟩ := intersectionPlan_inr hp
    exact hcrossed hm

/-- Every type is made out of types of the store and then is one. -/
theorem build (h : st.Stocked) {f : Form} (hc : ∀ c ∈ f.mentions, c < st.size) :
    (f.build.run st).2.Stocked ∧ (f.build.run st).1 < (f.build.run st).2.size := by
  cases f with
  | intrinsic kind => exact ⟨h, h.intrinsic_lt (TypeId.isIntrinsic_iff.mpr ⟨kind, rfl⟩)⟩
  | literal value => exact h.intern (.literal value) ⟨trivial, fun _ he => by cases he⟩
  | union members => exact h.mkUnion hc
  | intersection members => exact h.mkIntersection hc
  | object shape =>
    exact (h.internShape hc).intern (.object _)
      ⟨h.indexed.shapes.isSome_intern shape, fun _ he => by cases he⟩
  | array element =>
    apply h.intern (.array element)
    refine ⟨trivial, fun _ he => ?_⟩
    cases he
    exact hc element (List.mem_singleton.mpr rfl)
  | tuple elements =>
    exact (h.internSlots hc).intern (.tuple _)
      ⟨h.indexed.tuples.isSome_intern elements, fun _ he => by cases he⟩
  | function signature =>
    exact (h.internSignature hc).intern (.function _)
      ⟨h.indexed.signatures.isSome_intern signature, fun _ he => by cases he⟩
  | constructor signature =>
    obtain ⟨receiver, params, result⟩ := signature
    -- the receiver, if there is one, is not part of what is made
    have hmade : ∀ c ∈ (Form.function { params, result }).mentions, c < st.size := by
      intro c hm
      apply hc c
      simp only [Form.mentions, Option.toList_none, List.nil_append, List.append_assoc] at hm ⊢
      exact List.mem_append_right _ hm
    exact (h.internSignature hmade).intern (.constructor _)
      ⟨h.indexed.signatures.isSome_intern { params, result }, fun _ he => by cases he⟩
  | wrapper kind args =>
    exact (h.internList hc).intern (.wrapper kind _)
      ⟨h.indexed.lists.isSome_intern args, fun _ he => by cases he⟩
  | infer name => exact h.intern (.infer name) ⟨trivial, fun _ he => by cases he⟩
  | param name => exact h.intern (.param name) ⟨trivial, fun _ he => by cases he⟩

/-- A placeholder may be given the body of any type. -/
theorem copied (h : st.Stocked) {t : TypeId} (a : TypeId)
    (hc : st.cells[t]? = some (.reserved none)) :
    (st.filled t ((st.lookup a).getD (.intrinsic .never))).Stocked := by
  cases hl : st.lookup a with
  | none => exact h.filled hc trivial fun _ hm => by cases hm
  | some node =>
    apply h.filled hc (h.placed hl)
    intro c hm
    apply h.inside (t := a)
    rw [mentions, hl]
    exact hm

end Stocked

end Store

def StoreInvariant.extant : StoreInvariant where
  Good := Store.Stocked
  Fit st t := t < st.size
  later h ht := Nat.lt_of_lt_of_le ht h
  child h _ hc := h.inside hc
  intrinsic h ht := h.intrinsic_lt ht
  part id h := h.conditional_lt_size id
  build h hc := h.build hc
  conditional h hp hy hn := h.internConditional hp hy hn
  mapping m h := h.internMapping m
  reserve {st} h := ⟨h.reserve,
    (List.getElem?_eq_some_iff.mp (Discipline.leads_reserve .free st).2.2).1⟩
  fill a h hc := h.copied a hc
  define t h hc := h.defineObject t hc

theorem Substitution.Known.later {s : Substitution} {st st' : Store} (h : s.Known st)
    (hsize : st.size ≤ st'.size) : s.Known st' where
  infers name t ht := Nat.lt_of_lt_of_le (h.infers name t ht) hsize
  params name t ht := Nat.lt_of_lt_of_le (h.params name t ht) hsize
  memo hm := Nat.lt_of_lt_of_le (h.memo hm) hsize

theorem Evaluator.Known.later {e : Evaluator} {st st' : Store} (h : e.Known st)
    (hsize : st.size ≤ st'.size) : e.Known st' :=
  fun task progress t hm ht => Nat.lt_of_lt_of_le (h task progress t hm ht) hsize

/-- A store and the substitutions and evaluators that its users have, in all the states in which
they have had them. -/
structure World where
  store : Store := .initial
  substitutions : List Substitution := []
  evaluators : List Evaluator := []

namespace World

/-- All that the operation is given is there: types and entries of tables, and the substitution or
the evaluator that is used. -/
def Supplies (w : World) : Operation → Prop
  | .intern node | .define _ node => w.store.Supplied node
  | .build c => ∀ t ∈ c.operands, t < w.store.size
  | .bind bindings _ candidate _ =>
    bindings.AreOf (fun st t => t < st.size) w.store ∧ candidate < w.store.size
  | .matching subject pattern _ => subject < w.store.size ∧ pattern < w.store.size
  | .substitute s t => s ∈ w.substitutions ∧ t < w.store.size
  | .evaluate e call => e ∈ w.evaluators ∧ ∀ t ∈ call.operands, t < w.store.size
  | .render t => t < w.store.size

def after (w : World) (op : Operation) : World where
  store := op.after w.store
  substitutions := match op with
    | .substitute s t => ((Substitution.apply t).run s w.store).1.2 :: w.substitutions
    | _ => w.substitutions
  evaluators := match op with
    | .evaluate e call => (call.act.run e w.store).1.2 :: w.evaluators
    | _ => w.evaluators

/-- How a world can come about: its users begin with the intrinsic types, start substitutions and
evaluators under any limits, and do what they like with what there is. -/
inductive Reached : World → Prop
  | initial : Reached {}
  | operation {w : World} (h : Reached w) (op : Operation) (hs : w.Supplies op) :
      Reached (w.after op)
  | substitution {w : World} (h : Reached w) (limits : Limits) :
    Reached { w with substitutions := .start limits :: w.substitutions }
  | ofBindings {w : World} (h : Reached w) (bindings : Bindings)
    (hb : bindings.AreOf (fun st t => t < st.size) w.store) :
    Reached { w with substitutions := .ofBindings bindings :: w.substitutions }
  | bindInfer {w : World} (h : Reached w) {s : Substitution} (hs : s ∈ w.substitutions)
      (name : String)
    {t : TypeId} (ht : t < w.store.size) :
    Reached { w with substitutions := s.bindInfer name t :: w.substitutions }
  | bindParam {w : World} (h : Reached w) {s : Substitution} (hs : s ∈ w.substitutions)
      (name : String)
    {t : TypeId} (ht : t < w.store.size) :
    Reached { w with substitutions := s.bindParam name t :: w.substitutions }
  | evaluator {w : World} (h : Reached w) (limits : Limits) :
    Reached { w with evaluators := .start limits :: w.evaluators }
  | clear {w : World} (h : Reached w) {e : Evaluator} (he : e ∈ w.evaluators) :
    Reached { w with evaluators := e.clear :: w.evaluators }

structure Sound (w : World) : Prop where
  stocked : w.store.Stocked
  substitutions {s : Substitution} : s ∈ w.substitutions → s.Known w.store
  evaluators {e : Evaluator} : e ∈ w.evaluators → e.Known w.store

namespace Sound

variable {w : World}

theorem ready (h : w.Sound) {e : Evaluator} (he : e ∈ w.evaluators) :
    Evaluator.Ready (StoreInvariant.rules .extant) (e, w.store) :=
  ⟨h.stocked, fun hm ht => h.evaluators he _ _ _ hm ht⟩

theorem prepared (h : w.Sound) {s : Substitution} (hs : s ∈ w.substitutions) :
    Substitution.Ready (StoreInvariant.rules .extant) (s, w.store) :=
  ⟨h.stocked, (h.substitutions hs).infers, (h.substitutions hs).params, (h.substitutions hs).memo⟩

/-- No operation brings in a type that is not there. -/
theorem stocked_after (h : w.Sound) {op : Operation} (hs : w.Supplies op) :
    (op.after w.store).Stocked := by
  cases op with
  | intern node => exact (h.stocked.intern node hs).1
  | define t body => exact h.stocked.define t hs
  | build c => exact StoreInvariant.good_after (I := .extant) h.stocked (.build c) hs
  | bind bindings name candidate variance =>
    exact StoreInvariant.good_after (I := .extant) h.stocked
      (.bind bindings name candidate variance) hs
  | matching subject pattern limits =>
    exact StoreInvariant.good_after (I := .extant) h.stocked (.matching subject pattern limits) hs
  | substitute s t =>
    exact StoreInvariant.good_after (I := .extant) h.stocked (.substitute s t)
      ⟨h.prepared hs.1, hs.2⟩
  | evaluate e call =>
    exact StoreInvariant.good_after (I := .extant) h.stocked (.evaluate e call) ⟨h.ready hs.1, hs.2⟩
  | render t => exact h.stocked

theorem after (h : w.Sound) {op : Operation} (hs : w.Supplies op) : (w.after op).Sound where
  stocked := h.stocked_after hs
  substitutions {s} hm := by
    have old (hm : s ∈ w.substitutions) : s.Known (op.after w.store) :=
      (h.substitutions hm).later (op.outcome_free w.store).appends.size
    cases op with
    | substitute s₀ t =>
      rcases List.mem_cons.mp hm with rfl | hm
      · have hnew :=
          (Substitution.runs_apply (h.prepared hs.1) hs.2).leads.1.ready (h.prepared hs.1)
        exact ⟨hnew.infers, hnew.params, hnew.memo⟩
      · exact old hm
    | _ => exact old hm
  evaluators {e} hm := by
    have old (hm : e ∈ w.evaluators) : e.Known (op.after w.store) :=
      (h.evaluators hm).later (op.outcome_free w.store).appends.size
    cases op with
    | evaluate e₀ call =>
      rcases List.mem_cons.mp hm with rfl | hm
      · have hnew := (StoreInvariant.upholds_call (h.ready hs.1) call hs.2).1.ready (h.ready hs.1)
        exact fun _ _ _ hm ht => hnew.memo hm ht
      · exact old hm
    | _ => exact old hm

/-- A further substitution that holds types of the store. -/
theorem addSubstitution (h : w.Sound) {s : Substitution} (hs : s.Known w.store) :
    Sound { w with substitutions := s :: w.substitutions } where
  stocked := h.stocked
  substitutions hm := by
    rcases List.mem_cons.mp hm with rfl | hm
    · exact hs
    · exact h.substitutions hm
  evaluators := h.evaluators

theorem addEvaluator (h : w.Sound) {e : Evaluator} (he : e.Known w.store) :
    Sound { w with evaluators := e :: w.evaluators } where
  stocked := h.stocked
  substitutions := h.substitutions
  evaluators hm := by
    rcases List.mem_cons.mp hm with rfl | hm
    · exact he
    · exact h.evaluators hm

end Sound

/-- Whatever users do with what there is keeps the world sound. -/
theorem Reached.sound {w : World} (h : w.Reached) : w.Sound := by
  induction h with
  | initial => exact ⟨Store.stocked_initial, (fun hm => by cases hm), fun hm => by cases hm⟩
  | operation _ op hs ih => exact ih.after hs
  | substitution _ limits ih =>
    exact ih.addSubstitution ⟨(fun _ _ hm => by cases hm), (fun _ _ hm => by cases hm),
      fun hm => by cases hm⟩
  | ofBindings _ bindings hb ih =>
    exact ih.addSubstitution ⟨hb, (fun _ _ hm => by cases hm), fun hm => by cases hm⟩
  | bindInfer _ hs name ht ih =>
    have hk := ih.substitutions hs
    exact ih.addSubstitution ⟨hk.infers.insert ht, hk.params, hk.memo⟩
  | bindParam _ hs name ht ih =>
    have hk := ih.substitutions hs
    exact ih.addSubstitution ⟨hk.infers, hk.params.insert ht, hk.memo⟩
  | evaluator _ limits ih => exact ih.addEvaluator (Evaluator.known_start limits _)
  | clear _ he ih => exact ih.addEvaluator fun _ _ _ hm => by cases hm

end World

namespace Store.Anchored

variable {st : Store}

/-- Without placeholders a path goes down. -/
theorem path_lt (ha : st.Anchored) {t u : TypeId} {path : List TypeId}
    (h : List.IsChain (fun a b => b ∈ st.mentions a) (t :: path ++ [u]))
    (hi : ∀ v ∈ t :: path, st.isReserved v = false) : u < t := by
  induction path generalizing t with
  | nil =>
    obtain ⟨hu, _⟩ := List.isChain_cons_cons.mp h
    exact ha.below (hi t (List.mem_cons_self ..)) hu
  | cons v path ih =>
    obtain ⟨hv, hrest⟩ := List.isChain_cons_cons.mp h
    have hvt : v < t := ha.below (hi t (List.mem_cons_self ..)) hv
    have huv : u < v := ih hrest fun w hw => hi w (List.mem_cons_of_mem t hw)
    exact Nat.lt_trans huv hvt

/-- A path that returns to where it began goes through a placeholder. -/
theorem cycle_reserved (ha : st.Anchored) {t : TypeId} {path : List TypeId}
    (h : List.IsChain (fun a b => b ∈ st.mentions a) (t :: path ++ [t])) :
    ∃ u ∈ t :: path, st.isReserved u = true := by
  by_contra hnone
  have hinterned : ∀ u ∈ t :: path, st.isReserved u = false := by
    intro u hu
    rw [Bool.eq_false_iff]
    exact fun hr => hnone ⟨u, hu, hr⟩
  exact Nat.lt_irrefl t (ha.path_lt h hinterned)

end Store.Anchored

/-- Whatever users do with what there is, an interned type mentions only types that are older than
itself, and every cycle has a placeholder on it. -/
theorem World.Reached.cycles_reserved {w : World} (h : w.Reached) :
    (∀ (t : TypeId) (node : Node), w.store.cells[t]? = some (.interned node) →
      ∀ c ∈ w.store.children node, c < t) ∧
    ∀ (t : TypeId) (path : List TypeId),
      List.IsChain (fun a b => b ∈ w.store.mentions a) (t :: path ++ [t]) →
      ∃ u ∈ t :: path, w.store.isReserved u = true := by
  have ha := h.sound.stocked.toAnchored
  refine ⟨fun t node hc c hm => ?_, fun t path => ha.cycle_reserved⟩
  obtain ⟨hl, hr⟩ := Store.interned_iff.mp hc
  apply ha.below hr
  rw [Store.mentions, hl]
  exact hm

/-- A row links to further rows: its placeholder is given the shape of an object that was made
before. -/
def linkedRows : World :=
  [.build .reserve, .build (.array 12),
    .build (.object { fields := [{ name := "next", type := 13 },
      { name := "name", type := .string }] }),
    .define 12 (.object 0)].foldl World.after { evaluators := [.start] }

def linkedRowsMapped : World :=
  linkedRows.after (.evaluate .start (.mapWith { value := .deep, optional := some .add } 13))

theorem World.Reached.cycles_reserved_linkedRows :
    linkedRowsMapped.Reached ∧
      List.IsChain (fun a b => b ∈ linkedRowsMapped.store.mentions a) [15, 17, 15] ∧
      (∃ u ∈ [15, 17], linkedRowsMapped.store.isReserved u = true) ∧
      linkedRowsMapped.store.cells[17]? = some (.interned (.object 1)) ∧
      ∀ c ∈ linkedRowsMapped.store.children (.object 1), c < 17 := by
  have hreached : linkedRowsMapped.Reached := by
    refine .operation
      (.operation (.operation (.operation (.operation (.evaluator .initial _) _ ?_) _ ?_) _ ?_)
      _ ?_) _ ?_
    · exact fun _ h => by cases h
    · show ∀ t ∈ [12], t < _
      decide +kernel
    · show ∀ t ∈ [13, 8], t < _
      decide +kernel
    · refine ⟨?_, fun _ h => by cases h⟩
      show (Table.get? _ 0).isSome = true
      decide +kernel
    · refine ⟨List.mem_singleton.mpr rfl, ?_⟩
      show ∀ t ∈ [13], t < _
      decide +kernel
  have hcycle : List.IsChain (fun a b => b ∈ linkedRowsMapped.store.mentions a) [15, 17, 15] := by
    decide +kernel
  have hcell : linkedRowsMapped.store.cells[17]? = some (.interned (.object 1)) := by decide +kernel
  obtain ⟨hbelow, hcycles⟩ := hreached.cycles_reserved
  exact ⟨hreached, hcycle, hcycles 15 [17] hcycle, hcell, hbelow 17 _ hcell⟩

end TypeCalculus
