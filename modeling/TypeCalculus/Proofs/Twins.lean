import TypeCalculus.Proofs.HashConsing

namespace TypeCalculus

namespace Store

/-- Everything within reach is in the store, and so is what it is made of. -/
def Intact (st : Store) (t : TypeId) : Prop :=
  ∀ u, st.Reaches t u → u < st.size ∧ ∀ node, st.lookup u = some node → st.Placed node

section Intact

variable {st st' : Store} {t : TypeId}

theorem Intact.child (h : st.Intact t) {c : TypeId} (hc : c ∈ st.mentions t) : st.Intact c :=
  fun u hu => h u (.head hc hu)

theorem Intact.lt_size (h : st.Intact t) : t < st.size := (h t .refl).1

/-- What is complete reads the same in every extension. -/
theorem Intact.steady (h : st.Intact t) (hs : st.Extends st') : st.Steady st' t := by
  intro u hu
  obtain ⟨hlt, hplaced⟩ := h u hu
  refine ⟨hs.lookup hlt, ?_⟩
  cases hl : st.lookup u with
  | none => rw [form?_eq_none.mpr hl, form?_eq_none.mpr ((hs.lookup hlt).trans hl)]
  | some node =>
    rw [form_of_lookup hl, form_of_lookup ((hs.lookup hlt).trans hl),
      hs.widens.form (hplaced node hl)]

theorem Founded.intact (hf : st.Founded) (kind : Intrinsic) : st.Intact kind.id := by
  intro u hu
  obtain rfl := hf.reaches hu
  refine ⟨(hf.solid kind).lt_size, fun node hl => ?_⟩
  cases (hf.lookup kind).symm.trans hl
  trivial

/-- Where only what was handed out is used, nothing is missing. -/
theorem Anchored.intact (ha : st.Anchored) (ht : t < st.size) : st.Intact t := by
  intro u hu
  have hlt : u < st.size := hu.inside (X := (· < st.size)) (fun _ _ _ hc => ha.inside hc) ht
  exact ⟨hlt, fun node hl => ha.placed hl⟩

theorem intact_of_builds {ops : List Operation} (h : Operation.builds .initial ops = true)
    (ht : t < (Operation.afterAll .initial ops).size) :
    (Operation.afterAll .initial ops).Intact t := by
  have hg : Discipline.Good .given (Operation.afterAll .initial ops) := Operation.good_afterAll
    (fun h => by cases h) (Discipline.good_initial _) (Operation.allAccepted_of_builds h)
  exact (hg.anchored fun h => by cases h).intact ht

end Intact

def Stored (f : Form) (t : TypeId) (st : Store) : Prop :=
  ∃ node, st.cells[t]? = some (.interned node) ∧ st.Placed node ∧ st.form node = f

section Stored

variable {st st' : Store} {f : Form} {t u : TypeId}

theorem Stored.form (h : Stored f t st) : st.form? t = some f := by
  obtain ⟨node, hc, _, rfl⟩ := h
  exact form_of_lookup (by simp [Store.lookup, hc, Cell.node?])

theorem Stored.later (h : Stored f t st) (hs : st.Extends st') : Stored f t st' := by
  obtain ⟨node, hc, hp, hf⟩ := h
  exact ⟨node, hs.widens.interned hc, hs.widens.placed hp, (hs.widens.form hp).trans hf⟩

/-- What is made of the same parts is one type. -/
theorem Stored.unique (hs : st.Shared) (ht : Stored f t st) (hu : Stored f u st) : t = u := by
  obtain ⟨node, hc, hp, hf⟩ := ht
  obtain ⟨other, hc', hp', hf'⟩ := hu
  obtain rfl := hs.node_unique hp hp' (hf.trans hf'.symm)
  exact hs.indexed.cell_inj hc hc'

/-- What was interned in the first store is still known there by its parts in a later one. -/
theorem Intact.stored (h : st.Intact t) (hs : st.Extends st') (ht : Stored f t st') :
    Stored f t st := by
  obtain ⟨node, hc, _, hf⟩ := ht
  rw [hs.cell h.lt_size] at hc
  have hp : st.Placed node := (h t .refl).2 node (by simp [Store.lookup, hc, Cell.node?])
  exact ⟨node, hc, hp, (hs.widens.form hp).symm.trans hf⟩

section Building

variable (hi : st.Indexed)

include hi

theorem stored_intern (node : Node) (hn : ∀ kind, node ≠ .intrinsic kind) (hp : st.Placed node)
    (hf : st.form node = f) : Stored f ((intern node).run st).1 ((intern node).run st).2 := by
  have hgrown := extends_intern node st
  exact ⟨node, Discipline.cell_intern hn (hgrown.indexed.mpr hi), hgrown.widens.placed hp,
    (hgrown.widens.form hp).trans hf⟩

theorem stored_mkTuple (slots : List Slot) :
    Stored (.tuple slots) ((mkTuple slots).run st).1 ((mkTuple slots).run st).2 := by
  have hget : ((internSlots slots).run st).2.tuples.get? ((internSlots slots).run st).1 =
      some slots :=
    hi.tuples.get?_intern slots
  exact stored_intern ((extends_internSlots slots st).indexed.mpr hi)
    (.tuple ((internSlots slots).run st).1) (fun _ h => by cases h) (by simp [Placed, hget])
    (by simp [Store.form, Store.slots, hget])

theorem stored_mkObject (shape : Shape) :
    Stored (.object shape) ((mkObject shape).run st).1 ((mkObject shape).run st).2 := by
  have hget : ((internShape shape).run st).2.shapes.get? ((internShape shape).run st).1 =
      some shape :=
    hi.shapes.get?_intern shape
  exact stored_intern ((extends_internShape shape st).indexed.mpr hi)
    (.object ((internShape shape).run st).1) (fun _ h => by cases h) (by simp [Placed, hget])
    (by simp [Store.form, Store.shape, hget])

theorem stored_union (members : List TypeId) :
    let r := (internList members >>= fun id => intern (.union id)).run st
    Stored (.union members) r.1 r.2 := by
  have hget : ((internList members).run st).2.lists.get? ((internList members).run st).1 =
      some members := hi.lists.get?_intern members
  exact stored_intern ((extends_internList members st).indexed.mpr hi)
    (.union ((internList members).run st).1) (fun _ h => by cases h) (by simp [Placed, hget])
    (by simp [Store.form, Store.list, hget])

end Building

/-- A type has no infer variables if it is none and its parts have none. -/
theorem inferFree_iff_parts (hf : st.form? t = some f) :
    st.InferFree t ↔ (∀ name, f ≠ .infer name) ∧ ∀ c ∈ f.mentions, st.InferFree c := by
  rw [← mentions_of_form hf]
  refine ⟨fun h => ⟨fun name he => h t .refl name (he ▸ hf), fun c hc => h.child hc⟩, ?_⟩
  rintro ⟨hn, hparts⟩ u hu name hname
  rcases Relation.ReflTransGen.cases_head hu with rfl | ⟨c, hc, hcu⟩
  · cases hf.symm.trans hname
    exact hn name rfl
  · exact hparts c hc u hcu name hname

end Stored

end Store

open Store (Stored)

/-- One type of the first store, or two that are made alike out of types of the first store. -/
inductive Twin (base a b : Store) : TypeId → TypeId → Prop
  | same {t : TypeId} (h : base.Intact t) : Twin base a b t t
  | made {f : Form} {x y : TypeId} (parts : ∀ c ∈ f.mentions, base.Intact c) (hx : Stored f x a)
    (hy : Stored f y b) : Twin base a b x y

namespace Twin

variable {base a b a' b' : Store} {x y x' y' : TypeId}

theorem symm (h : Twin base a b x y) : Twin base b a y x := by
  cases h with
  | same h => exact .same h
  | made parts hx hy => exact .made parts hy hx

theorem left (h : Twin base a b x y) : Twin base a a x x := by
  cases h with
  | same h => exact .same h
  | made parts hx _ => exact .made parts hx hx

theorem right (h : Twin base a b x y) : Twin base b b y y := h.symm.left

theorem later (h : Twin base a b x y) (ha : a.Extends a') (hb : b.Extends b') :
    Twin base a' b' x y := by
  cases h with
  | same h => exact .same h
  | made parts hx hy => exact .made parts (hx.later ha) (hy.later hb)

section Reading

variable (ha : base.Extends a) (hb : base.Extends b)

include ha hb

theorem form (h : Twin base a b x y) : a.form? x = b.form? y := by
  cases h with
  | same h => rw [(h.steady ha x .refl).2, (h.steady hb x .refl).2]
  | made _ hx hy => rw [hx.form, hy.form]

omit hb in
/-- The parts are types of the first store. -/
theorem parts (h : Twin base a b x y) {f : Form} (hf : a.form? x = some f) {c : TypeId}
    (hc : c ∈ f.mentions) : base.Intact c := by
  cases h with
  | same h =>
    rw [(h.steady ha x .refl).2] at hf
    exact h.child (Store.mentions_of_form hf ▸ hc)
  | made parts hx _ =>
    cases hx.form.symm.trans hf
    exact parts c hc

/-- Both are undefined, or they have the same parts. -/
theorem lookup (h : Twin base a b x y) : a.lookup x = none ∧ b.lookup y = none ∨
    ∃ n m, a.lookup x = some n ∧ b.lookup y = some m ∧ b.form m = a.form n ∧
      ∀ c ∈ (a.form n).mentions, base.Intact c := by
  have hform := h.form ha hb
  cases hx : a.lookup x with
  | none =>
    rw [Store.form?_eq_none.mpr hx] at hform
    exact .inl ⟨rfl, Store.form?_eq_none.mp hform.symm⟩
  | some n =>
    have hn := Store.form_of_lookup hx
    rw [hn] at hform
    obtain ⟨m, hm, hsame⟩ := Store.lookup_of_form hform.symm
    exact .inr ⟨n, m, rfl, hm, hsame, fun c hc => h.parts ha hn hc⟩

/-- The two walks find infer variables in the same types. -/
theorem containsInfer (hf : base.Founded) (h : Twin base a b x y) :
    a.containsInfer x = b.containsInfer y := by
  have old {st : Store} (hs : base.Extends st) {t : TypeId} (ht : base.Intact t) :
      st.containsInfer t = base.containsInfer t :=
    (ht.steady hs).scan hf hs.size _
  cases h with
  | same h => rw [old ha h, old hb h]
  | @made f _ _ parts hx hy =>
    have hall {st : Store} (hs : base.Extends st) {t : TypeId} (ht : Stored f t st) :
        st.containsInfer t = false ↔
          (∀ name, f ≠ .infer name) ∧ ∀ c ∈ f.mentions, base.containsInfer c = false := by
      have hfounded := hs.founded hf
      rw [Store.containsInfer_eq_false hfounded, Store.inferFree_iff_parts ht.form]
      refine and_congr_right fun _ => forall₂_congr fun c hc => ?_
      rw [← old hs (parts c hc), Store.containsInfer_eq_false hfounded]
    rw [Bool.eq_iff_iff, ← not_iff_not, Bool.not_eq_true, Bool.not_eq_true, hall ha hx, hall hb hy]

/-- The two walks see the same types equal. -/
theorem eq_iff (hsa : a.Shared) (hsb : b.Shared) (h : Twin base a b x y)
    (h' : Twin base a b x' y') : x = x' ↔ y = y' := by
  have forth {a b : Store} {x y x' y' : TypeId} (ha : base.Extends a) (hb : base.Extends b)
      (hsb : b.Shared) (h : Twin base a b x y) (h' : Twin base a b x' y') (he : x = x') :
      y = y' := by
    subst he
    cases h with
    | same h =>
      cases h' with
      | same => rfl
      | made _ hx hy => exact (((h.stored ha hx).later hb).unique hsb hy)
    | made _ hx hy =>
      cases h' with
      | same h => exact hy.unique hsb ((h.stored ha hx).later hb)
      | made _ hx' hy' =>
        cases hx.form.symm.trans hx'.form
        exact hy.unique hsb hy'
  exact ⟨forth ha hb hsb h h', forth hb ha hsa h.symm h'.symm⟩

end Reading

section Building

variable (hf : base.Founded) (hi : base.Indexed) (ha : base.Extends a) (hb : base.Extends b)

include hf hi ha hb

/-- Unions of types of the first store are twins, wherever they are built. -/
theorem mkUnion {types : List TypeId} (ht : ∀ t ∈ types, base.Intact t) :
    Twin base (Action.run (Store.mkUnion types) a).2 (Action.run (Store.mkUnion types) b).2
      (Action.run (Store.mkUnion types) a).1 (Action.run (Store.mkUnion types) b).1 := by
  have hkept {m : TypeId} (hm : m ∈ base.kept types) : base.Intact m := by
    obtain ⟨t, hmem, hm⟩ := (base.mem_flat types).mp (base.mem_kept_flat types hm)
    rcases Store.mem_unionMembers hm with rfl | hm
    · exact ht m hmem
    · exact (ht t hmem).child hm
  have hplan {st : Store} (hs : base.Extends st) : st.unionPlan types = base.unionPlan types :=
    Store.unionPlan_steady fun t hm => (ht t hm).steady hs
  have hrun (st : Store) : Action.run (Store.mkUnion types) st = _ := Store.run_mkUnion st types
  rw [hrun a, hrun b, hplan ha, hplan hb]
  cases hp : base.unionPlan types with
  | inl t =>
    rcases Store.unionPlan_old hp with ht | hm
    · obtain ⟨kind, rfl⟩ := TypeId.isIntrinsic_iff.mp ht
      exact .same (hf.intact kind)
    · exact .same (hkept hm)
  | inr members =>
    obtain ⟨rfl, _⟩ := Store.unionPlan_inr hp
    exact .made (f := .union _) (fun c hc => hkept hc) (Store.stored_union (ha.indexed.mpr hi) _)
      (Store.stored_union (hb.indexed.mpr hi) _)

omit hf in
theorem remainder {slots : List Slot} (ht : ∀ c ∈ slots.map Slot.type, base.Intact c) :
    Twin base (Action.run (Matcher.remainder slots) a).2 (Action.run (Matcher.remainder slots) b).2
      (Action.run (Matcher.remainder slots) a).1 (Action.run (Matcher.remainder slots) b).1 := by
  have htuple : Twin base ((Store.mkTuple slots).run a).2 ((Store.mkTuple slots).run b).2
      ((Store.mkTuple slots).run a).1 ((Store.mkTuple slots).run b).1 :=
    .made (f := .tuple slots) ht (Store.stored_mkTuple (ha.indexed.mpr hi) slots)
      (Store.stored_mkTuple (hb.indexed.mpr hi) slots)
  unfold Matcher.remainder
  split
  · rename_i only
    have honly : base.Intact only.type := ht _ (by simp)
    split
    · exact .same honly
    · exact htuple
  · exact htuple

/-- What a rest slot stands for is read out of the first store. -/
theorem elementType {slot : Slot} (ht : base.Intact slot.type) :
    Twin base (Action.run (Matcher.elementType slot) a).2
      (Action.run (Matcher.elementType slot) b).2
      (Action.run (Matcher.elementType slot) a).1 (Action.run (Matcher.elementType slot) b).1 := by
  have hsame : Twin base a b slot.type slot.type := .same ht
  have hsteady := ht.steady ha
  have hsteady' := ht.steady hb
  have hget (st : Store) : Action.run (get : StoreM Store) st = (st, st) := rfl
  unfold Matcher.elementType
  rw [Action.run_bind, Action.run_bind, hget, hget]
  cases hrest : slot.rest with
  | false => exact hsame
  | true =>
    simp only [Bool.not_true, Bool.false_eq_true, if_false, hsteady.lookup, hsteady'.lookup]
    cases hl : base.lookup slot.type with
    | none => exact hsame
    | some node =>
      have hparts {c : TypeId} (hc : c ∈ (base.form node).mentions) : base.Intact c :=
        ht.child (Store.mentions_of_form (Store.form_of_lookup hl) ▸ hc)
      cases node with
      | array element =>
        have helement : base.Intact element := hparts (by simp [Store.form, Form.mentions])
        exact .same helement
      | tuple elements =>
        have hslots : a.slots elements = base.slots elements :=
          Form.tuple.inj (hsteady.form_node hl)
        have hslots' : b.slots elements = base.slots elements :=
          Form.tuple.inj (hsteady'.form_node hl)
        simp only [hslots, hslots']
        exact mkUnion hf hi ha hb fun t hm => hparts hm
      | _ => exact hsame

end Building

end Twin

end TypeCalculus
