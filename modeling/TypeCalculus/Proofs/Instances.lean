import TypeCalculus.Proofs.Replacing
import TypeCalculus.Proofs.Unions

namespace TypeCalculus

/-- The forms that values only flow out of, and whose parts stay apart. -/
def Form.isCovariant : Form → Bool
  | .intersection _ | .function _ | .constructor _ => false
  | .tuple slots => slots.all (!·.rest)
  | _ => true

namespace Store

def Covariant (st : Store) (t : TypeId) : Prop :=
  ∀ u, st.Reaches t u → st.isReserved u = false ∧ ∀ f, st.form? u = some f → f.isCovariant = true

theorem inherited_covariant : Inherited fun st t => t < st.size ∧ st.Covariant t where
  lt_size h := h.1
  later {st st' t} hw he h := by
    refine ⟨Nat.lt_of_lt_of_le h.1 he.size, fun u hu => ?_⟩
    rw [hw.reaches_extends he h.1] at hu
    have hlt := hw.lt_size_of_reaches h.1 hu
    rw [he.isReserved hlt, hw.form_extends he hlt]
    exact h.2 u hu
  child hw h hc := ⟨(hw.sound _).inside hc, fun u hu => h.2 u (.head hc hu)⟩

namespace Covariant

variable {st : Store} {t : TypeId}

theorem form (h : st.Covariant t) {f : Form} (hf : st.form? t = some f) : f.isCovariant = true :=
  (h t .refl).2 f hf

theorem concrete (h : st.Covariant t) (ht : t < st.size) (hf : st.InferFree t) : st.Concrete t := by
  refine ⟨ht, hf, fun u hu hc => ?_⟩
  have hr := (h u hu).1
  simp [isReserved, hc] at hr

/-- The parts of an interned type are older, so no path comes back to where it was. -/
theorem trail_lt (h : st.Covariant t) (hw : st.WellFormed) {trail : List TypeId} {c : TypeId}
    (ht : st.Trail t trail c) : ∀ u ∈ trail, c < u := by
  induction ht with
  | root => nofun
  | @step trail x c hx _ hc ih =>
    have hlt : c < x := (hw.sound x).below (h x hx.reaches).1 hc
    intro u hu
    rcases List.mem_cons.mp hu with rfl | hu
    · exact hlt
    · exact Nat.lt_trans hlt (ih u hu)

/-- A substitution in a covariant pattern never runs into its own path. -/
theorem not_cycleEntry (h : st.Covariant t) (hw : st.WellFormed) {c : TypeId} :
    ¬ st.CycleEntry t c := by
  rintro ⟨_, trail, ht, hm⟩
  exact Nat.lt_irrefl c (h.trail_lt hw ht c hm)

end Covariant

end Store

namespace Substitution

section Instances

variable (st : Store) (infers : Bindings) (R : TypeId → TypeId → Prop)

inductive Replaced (t a : TypeId) : Prop
  | free (h : st.InferFree t) (ha : a = t)
  | infer {name : String} (ht : st.form? t = some (.infer name))
    (ha : a = (infers.get? name).getD .never)
  | made {x y : Form} (hn : ¬ st.InferFree t) (ht : st.form? t = some x) (hu : x.isUnion = false)
    (hi : x.isIntersection = false) (h : FormLike R (SlotLike R st) x y) (ha : st.form? a = some y)
  | union {xs ys : List TypeId} (hn : ¬ st.InferFree t) (ht : st.form? t = some (.union xs))
    (h : List.Forall₂ R xs ys) (ha : (Store.mkUnion ys).run st = (a, st))

def Instance (t a : TypeId) : Prop :=
  ∃ R : TypeId → TypeId → Prop,
    (∀ t a, R t a → t < st.size ∧ st.Concrete a ∧ Replaced st infers R t a) ∧ R t a

end Instances

section Lemmas

variable {st : Store} {infers : Bindings} {R R' : TypeId → TypeId → Prop} {t a : TypeId}

theorem Replaced.mono (h : Replaced st infers R t a) (hR : ∀ x y, R x y → R' x y) :
    Replaced st infers R' t a := by
  cases h with
  | free h ha => exact .free h ha
  | infer ht ha => exact .infer ht ha
  | made hn ht hu hi h ha =>
    exact .made hn ht hu hi (h.mono hR (SlotLike.mono hR fun _ _ h => h)) ha
  | union hn ht h ha => exact .union hn ht (h.imp hR) ha

namespace Instance

theorem concrete (h : Instance st infers t a) : st.Concrete a := by
  obtain ⟨R, hR, h⟩ := h
  exact (hR t a h).2.1

theorem unfold (h : Instance st infers t a) : Replaced st infers (Instance st infers) t a := by
  obtain ⟨R, hR, h⟩ := h
  exact (hR t a h).2.2.mono fun x y hxy => ⟨R, hR, hxy⟩

theorem fold (ht : t < st.size) (ha : st.Concrete a)
    (h : Replaced st infers (Instance st infers) t a) : Instance st infers t a := by
  refine ⟨fun t a => t < st.size ∧ st.Concrete a ∧ Replaced st infers (Instance st infers) t a,
    fun t a h => ⟨h.1, h.2.1, h.2.2.mono fun x y hxy => ⟨?_, hxy.concrete, hxy.unfold⟩⟩, ht, ha, h⟩
  obtain ⟨R, hR, hxy⟩ := hxy
  exact (hR x y hxy).1

theorem refl (ht : st.Concrete t) : Instance st infers t t :=
  fold ht.valid ht (.free ht.inferFree rfl)

/-- A type with nothing to replace is its only instance. -/
theorem eq_of_free (h : Instance st infers t a) (hf : st.InferFree t) : a = t := by
  cases h.unfold with
  | free _ ha => exact ha
  | infer ht _ => exact absurd ht (hf t .refl _)
  | made hn => exact absurd hf hn
  | union hn => exact absurd hf hn

theorem eq_of_infer (h : Instance st infers t a) {name : String}
    (ht : st.form? t = some (.infer name)) : a = (infers.get? name).getD .never := by
  cases h.unfold with
  | free hf => exact absurd ht (hf t .refl name)
  | infer ht' ha =>
    cases ht.symm.trans ht'
    exact ha
  | made _ ht' _ _ h =>
    cases ht.symm.trans ht'
    cases h
  | union _ ht' => cases ht.symm.trans ht'

theorem later {st' : Store} (hw : st.WellFormed) (he : st.Extends st')
    (h : Instance st infers t a) :
    Instance st' infers t a := by
  obtain ⟨R, hR, h⟩ := h
  refine ⟨R, fun t a h => ?_, h⟩
  obtain ⟨ht, ha, h⟩ := hR t a h
  refine ⟨Nat.lt_of_lt_of_le ht he.size, Store.kind_concrete.later hw he ha, ?_⟩
  have hfree := hw.inferFree_extends he ht
  have hform := hw.form_extends he ht
  cases h with
  | free h ha => exact .free (hfree.mpr h) ha
  | infer hf ha => exact .infer (hform.trans hf) ha
  | made hn hf hu hi h hy =>
    exact .made (fun h => hn (hfree.mp h)) (hform.trans hf) hu hi
      (h.mono (fun _ _ h => h) (SlotLike.mono (fun _ _ h => h) fun _ _ => hw.form_grows he.grows))
      (hw.form_grows he.grows hy)
  | @union xs ys hn hf h hm =>
    have hvalid : ∀ y ∈ ys, y < st.size := fun y hy => by
      obtain ⟨x, _, hxy⟩ := mem_right_of_forall₂ h hy
      exact (hR x y hxy).2.1.valid
    have hagain := Store.repeats_mkUnion hw hvalid st'
    rw [hm] at hagain
    exact .union (fun h => hn (hfree.mp h)) (hform.trans hf) h (hagain he.grows)

end Instance

end Lemmas

section Fitting

variable {st : Store} {infers : Bindings}

/-- A tuple pattern without rest slots. -/
theorem tupleClause_fixed {R : TypeId → TypeId → Prop} {as bs : List Slot}
    (h : ∀ slot ∈ bs, slot.rest = false) :
    st.TupleClause R as bs ↔ (∀ slot ∈ as, slot.rest = false) ∧
      bs.countP (!·.optional) ≤ as.length ∧ as.length ≤ bs.length ∧
      Store.ElementsClause R as bs := by
  have hnone : bs.getLast?.filter Slot.rest = none := by
    rw [Option.filter_eq_none_iff]
    intro slot hm
    simp [h slot (List.mem_of_getLast? hm)]
  unfold Store.TupleClause
  rw [hnone]

/-- Without rest slots every slot becomes one slot. -/
theorem SlotsLike.fixed {R : TypeId → TypeId → Prop} {xs ys : List Slot}
    (h : SlotsLike (SlotLike R st) xs ys) (hx : ∀ slot ∈ xs, slot.rest = false) :
    List.Forall₂ (fun x y => R x.type y.type ∧ y = { x with type := y.type }) xs ys := by
  obtain ⟨parts, hp, rfl⟩ := h
  induction hp with
  | nil => exact .nil
  | @cons x part xs parts h _ ih =>
    obtain ⟨t, ht, rfl | ⟨hr, _⟩⟩ := h
    · exact .cons ⟨ht, rfl⟩ (ih fun slot hm => hx slot (List.mem_cons_of_mem _ hm))
    · simp [hx x List.mem_cons_self] at hr

def Fits (st : Store) (infers : Bindings) (a b : TypeId) : Prop :=
  ∀ b', Instance st infers b b' → st.Assignable a b'

theorem fits_fields {a x y : Shape} (h : Store.ShapeClause (Fits st infers) a x)
    (hf : List.Forall₂ (FieldLike (Instance st infers)) x.fields y.fields)
    (hi : IndexLike (Instance st infers) x.index y.index) :
    Store.ShapeClause st.Assignable a y := by
  refine ⟨fun wanted hm => ?_, fun index hindex t ht => ?_⟩
  · obtain ⟨old, hold, hinst, he⟩ := mem_right_of_forall₂ hf hm
    have hname : wanted.name = old.name := by rw [he]
    have hoptional : wanted.optional = old.optional := by rw [he]
    have hclause := h.1 old hold
    unfold Store.FieldClause at hclause ⊢
    rw [hname, hoptional]
    split at hclause
    · exact hclause
    · exact ⟨hclause.1, hclause.2 _ hinst⟩
  · cases hx : x.index with
    | none => simp [hx, hindex, IndexLike] at hi
    | some old =>
      rw [hx, hindex] at hi
      exact h.2 old hx t ht _ hi.1

theorem fits_elements {as xs ys : List Slot} (h : Store.ElementsClause (Fits st infers) as xs)
    (hs : List.Forall₂ (fun x y => Instance st infers x.type y.type ∧ y = { x with type := y.type })
      xs ys) : Store.ElementsClause st.Assignable as ys := by
  intro pair hp
  obtain ⟨old, hold, hinst, he⟩ := mem_zip_of_forall₂ hs hp
  obtain ⟨hrest, hoptional, hfits⟩ := h _ hold
  have hsame : pair.2.optional = old.optional := by rw [he]
  exact ⟨hrest, hsame ▸ hoptional, hfits _ hinst⟩

/-- A tuple that fits the slots of a pattern part for part is assignable to the instance. -/
theorem fits_tuple {as xs ys : List Slot} (h : st.TupleClause (Fits st infers) as xs)
    (hl : SlotsLike (SlotLike (Instance st infers) st) xs ys)
    (hx : ∀ slot ∈ xs, slot.rest = false) :
    st.TupleClause st.Assignable as ys := by
  have hs := hl.fixed hx
  have hy : ∀ slot ∈ ys, slot.rest = false := by
    intro slot hm
    obtain ⟨old, hold, _, he⟩ := mem_right_of_forall₂ hs hm
    rw [he]
    exact hx old hold
  have hflags : xs.map Slot.optional = ys.map Slot.optional := by
    rw [← List.forall₂_eq_eq_eq, List.forall₂_map_left_iff, List.forall₂_map_right_iff]
    exact hs.imp fun x y h => by rw [h.2]
  have hcount (slots : List Slot) :
      slots.countP (!·.optional) = (slots.map Slot.optional).countP (!·) := by
    rw [List.countP_map]
    rfl
  rw [tupleClause_fixed hx, hcount] at h
  rw [tupleClause_fixed hy, hcount, ← hflags, ← hs.length_eq]
  exact ⟨h.1, h.2.1, h.2.2.1, fits_elements h.2.2.2 hs⟩

/-- So it is with forms of every kind that values only flow out of. -/
theorem fits_parts {s : TypeId} {f x y : Form}
    (h : st.PartsClause (Fits st infers) (fun _ _ => False) s f x)
    (hl : FormLike (Instance st infers) (SlotLike (Instance st infers) st) x y)
    (hx : x.isCovariant = true) :
    st.PartsClause st.Assignable (fun a b => st.Assignable b a) s f y := by
  cases hl with
  | union => cases h
  | intersection => cases h
  | object hf hi =>
    cases h with
    | object h => exact .object (fits_fields h hf hi)
  | array hi =>
    cases h with
    | array h => exact .array (h _ hi)
    | tupleArray h =>
      refine .tupleArray fun slot hm => ?_
      obtain ⟨t, ht, hfits⟩ := h slot hm
      exact ⟨t, ht, hfits _ hi⟩
  | tuple hs =>
    cases h with
    | tuple h => exact .tuple (fits_tuple h hs (by simpa [Form.isCovariant] using hx))
  | wrapper hi =>
    cases h with
    | wrapper hk h =>
      refine .wrapper hk fun pair hp => ?_
      obtain ⟨old, hold, hinst⟩ := mem_zip_of_forall₂ hi hp
      exact h _ hold _ hinst
    | iterable h =>
      refine .iterable fun b hb => ?_
      cases hi with
      | nil => cases hb
      | cons hinst _ =>
        cases hb
        exact h _ rfl _ hinst
  | function => cases hx
  | constructor => cases hx

/-- A subject that fits the parts of a covariant pattern fits the pattern. -/
theorem fits_of_clause (hw : st.WellFormed) {s p : TypeId} (hs : st.Concrete s) (hp : p < st.size)
    (hcov : st.Covariant p) (hnot : ∀ name, st.form? p ≠ some (.infer name))
    (hc : st.Clause (Fits st infers) (fun _ _ => False) s p) : Fits st infers s p := by
  intro q h
  obtain ⟨g, hg⟩ := h.concrete.defined
  cases h.unfold with
  | free hf he =>
    subst he
    have hq := hcov.concrete hp hf
    refine (hc.transfer (.refl st s) (fun a b hab hr => ?_) (fun _ _ _ h => h.elim) rfl).assignable
    exact hr b (.refl (hab.kinds hw Store.kind_concrete Store.kind_concrete.toInherited hs hq).2)
  | infer ht => exact absurd ht (hnot _)
  | @made x y _ hf hxu hxi hl hy =>
    have hu : y.isUnion = false := by cases hl <;> first | rfl | cases hxu
    have hi : y.isIntersection = false := by cases hl <;> first | rfl | cases hxi
    refine Store.Clause.assignable ?_
    cases hc with
    | unionSubject hs _ hr => exact .unionSubject hs hg fun m hm => hr m hm q h
    | unionPattern _ _ hp =>
      cases hf.symm.trans hp
      cases hxu
    | intersectionPattern _ _ hp =>
      cases hf.symm.trans hp
      cases hxi
    | intersectionSubject hs _ _ _ hm hr => exact .intersectionSubject hs hy hu hi hm (hr q h)
    | parts hs hp ha ha' _ _ hparts =>
      cases hf.symm.trans hp
      exact .parts hs hy ha ha' hu hi (fits_parts hparts hl (hcov.form hf))
  | @union xs ys _ hf hi hm =>
    cases hc with
    | unionSubject hs _ hr =>
      exact Store.Clause.assignable (.unionSubject hs hg fun m hm => hr m hm q h)
    | unionPattern _ _ hp hx hr =>
      cases hf.symm.trans hp
      obtain ⟨y, hy, hinst⟩ := mem_right_of_forall₂ hi.flip hx
      refine (hr y hinst).mkUnion hw (fun z hz => ?_) hm hy hs
      obtain ⟨_, _, hz⟩ := mem_right_of_forall₂ hi hz
      exact hz.concrete
    | intersectionPattern _ _ hp => cases hf.symm.trans hp
    | intersectionSubject _ hp hb =>
      cases hf.symm.trans hp
      cases hb
    | parts _ hp _ _ hb =>
      cases hf.symm.trans hp
      cases hb

end Fitting

section Walk

variable {st₀ : Store} {root : TypeId} {infers : Bindings} (hw₀ : st₀.WellFormed)
variable (hroot : root < st₀.size) (hcov : st₀.Covariant root)
variable (hinfers : infers.AreOf Store.Concrete st₀)

include hw₀ hroot hcov hinfers

/-- Within a covariant pattern a substitution meets no placeholder and no cycle, so unless it hits a
limit all its answers are instances. -/
theorem rules_instance : Rules st₀ root infers .empty fun t a b st =>
    st.WellFormed ∧ st.Concrete a ∧ (b = true ∨ Instance st infers t a) where
  valid h := h.2.1.valid
  stable hb hs h := ⟨hs.sound h.1, Store.kind_concrete.later h.1 hs.grown h.2.1,
    h.2.2.imp hb fun hi => hi.later h.1 hs.grown⟩
  limit hw := ⟨hw, Store.kind_concrete.intrinsic .never hw, .inl rfl⟩
  unbound {t b st} hw he ht hu := by
    have hlt := hw₀.lt_size_of_reaches hroot ht
    have hc : st.Concrete t := Store.kind_concrete.later hw₀ he
      (Store.Covariant.concrete (fun u hu => hcov u (ht.trans hu)) hlt hu.inferFree)
    exact ⟨hw, hc, .inr (.refl hc)⟩
  cycle _ _ hc := absurd hc (hcov.not_cycleEntry hw₀)
  rebuilt {t a b st} hw he ht hbound h := by
    have hlt := hw₀.lt_size_of_reaches hroot ht
    have hform := hw₀.form_extends he hlt
    have hn : ¬ st.InferFree t := fun h => hbound ((hw₀.inferFree_extends he hlt).mp h).unbound
    have hclosed {f : Form} (hf : st.form? t = some f) (hi : ∀ name, f ≠ .infer name)
        (hm : f.mentions = []) : st.InferFree t :=
      ((Store.kind_infersIn _).built hw hf hi (by simp [hm])).2
    have hc : st.Concrete a := by
      refine h.ofKind Store.kind_concrete hw (fun _ _ h => h.2.2.1) hform
        (hinfers.later Store.kind_concrete hw₀ he) nofun fun hf => ?_
      exact absurd (Store.inferFree_of_form (hform.trans hf)) hn
    refine ⟨hw, hc, ?_⟩
    by_cases hb : b = true
    · exact .inl hb
    refine .inr (.fold (Nat.lt_of_lt_of_le hlt he.size) hc ?_)
    have h : Rebuilt (Instance st infers) st infers .empty t (st₀.form? t) a :=
      h.mono fun _ _ h => h.2.2.2.resolve_left hb
    have hcovariant := (hcov t ht).2
    generalize st₀.form? t = f at h hform hcovariant
    cases h with
    | undefined => exact absurd (Store.inferFree_of_form hform) hn
    | intrinsic | literal | param => exact absurd (hclosed hform nofun rfl) hn
    | infer => exact .infer hform rfl
    | @built x y _ h hm =>
      have made (hu : x.isUnion = false) (hi : x.isIntersection = false) :
          Replaced st infers (Instance st infers) t a := by
        have hmade := Form.made_build (h.isExact hu hi) hw.indexed
        rw [hm] at hmade
        exact .made hn hform hu hi (h.mono (fun _ _ h => h) fun _ _ h => h.like) hmade.form
      cases h with
      | union h => exact .union hn hform h hm
      | intersection => cases hcovariant _ rfl
      | _ => exact made rfl rfl
  empty _ ht hr := by simp [(hcov _ ht).1] at hr
  filled ht hr := by simp [(hcov _ ht).1] at hr

/-- A substitution that hits no limit answers with an instance. -/
theorem apply_instance : let r := ((apply root).run (ofBindings infers)).run st₀
    Store.Later st₀ r.2 ∧ (r.1.2.guard.overrun = false → Instance r.2 infers root r.1.1) := by
  intro r
  obtain ⟨hwalk, _, _, hinstance⟩ :=
    (rules_instance hw₀ hroot hcov hinfers).leads_apply hw₀ hroot (s := ofBindings infers)
      rfl rfl rfl rfl
  exact ⟨hwalk.later, fun hlimit => hinstance.resolve_left fun h =>
    Bool.false_ne_true (hlimit.symm.trans h)⟩

end Walk

end Substitution

end TypeCalculus
