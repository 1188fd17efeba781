import TypeCalculus.Proofs.Members

namespace TypeCalculus.Store

structure Inherited (P : Store → TypeId → Prop) : Prop where
  lt_size {st : Store} {t : TypeId} : P st t → t < st.size
  later {st st' : Store} {t : TypeId} : st.WellFormed → st.Extends st' → P st t → P st' t
  child {st : Store} {t c : TypeId} : st.WellFormed → P st t → c ∈ st.mentions t → P st c

/-- A property that parts inherit, that lasts while the store grows, and that every type built from
such parts has again. -/
structure Kind (P : Store → TypeId → Prop) : Prop extends Inherited P where
  filled {st : Store} {t u : TypeId} {body : Node} : st.WellFormed →
    st.cells[u]? = some (.reserved none) → body.isContainer = true →
    (∀ c ∈ (st.form body).mentions, P st c) → P st t → P (st.filled u body) t
  intrinsic {st : Store} (kind : Intrinsic) : st.WellFormed → P st kind.id
  built {st : Store} {t : TypeId} {f : Form} : st.WellFormed → st.form? t = some f →
    (∀ name, f ≠ .infer name) → (∀ c ∈ f.mentions, P st c) → P st t

/-- To be a type of the store is a kind. -/
theorem kind_valid : Kind fun st t => t < st.size where
  lt_size h := h
  later _ he h := Nat.lt_of_lt_of_le h he.size
  filled _ _ _ _ h := by
    rw [filled_size]
    exact h
  child hw _ hc := (hw.sound _).inside hc
  intrinsic kind hw := lt_size_of_form (hw.founded.form kind)
  built _ hf _ _ := lt_size_of_form hf

theorem never_lt_size {st : Store} (hw : st.WellFormed) : TypeId.never < st.size :=
  kind_valid.intrinsic .never hw

/-- What holds of every type within reach, if it is a matter of the type at one place alone and only
placeholders and infer variables can lack it. -/
theorem kind_everywhere {L : Store → TypeId → Prop}
    (later : ∀ {st st' t}, st.WellFormed → st.Extends st' → t < st.size → L st t → L st' t)
    (filled : ∀ {st t u body}, t ≠ u → L st t → L (st.filled u body) t)
    (built : ∀ {st t f}, st.form? t = some f → (∀ name, f ≠ .infer name) → L st t) :
    Kind fun st t => t < st.size ∧ ∀ u, st.Reaches t u → L st u where
  lt_size h := h.1
  later {st st' t} hw he h := by
    refine ⟨Nat.lt_of_lt_of_le h.1 he.size, fun u hu => ?_⟩
    rw [hw.reaches_extends he h.1] at hu
    exact later hw he (hw.lt_size_of_reaches h.1 hu) (h.2 u hu)
  filled {st t u body} hw hc hk hbody h := by
    rw [filled_size]
    refine ⟨h.1, fun v hv => ?_⟩
    have closed : ∀ x, x < st.size ∧ (∀ y, st.Reaches x y → L st y) →
        ∀ c ∈ (st.filled u body).mentions x, c < st.size ∧ ∀ y, st.Reaches c y → L st y := by
      intro x hx c hcm
      by_cases hxu : x = u
      · subst hxu
        exact hbody c (filled_mentions hc ▸ hcm)
      · rw [filled_mentions_ne hxu] at hcm
        exact ⟨(hw.sound x).inside hcm, fun y hy => hx.2 y (.head hcm hy)⟩
    have hin := hv.inside closed h
    by_cases hvu : v = u
    · subst hvu
      refine built (filled_form hc) fun name hf => ?_
      simpa [hf, Form.isContainer, hk] using st.form_isContainer body
    · exact filled hvu (hin.2 v .refl)
  child hw h hc := ⟨(hw.sound _).inside hc, fun u hu => h.2 u (.head hc hu)⟩
  intrinsic kind hw := by
    refine ⟨lt_size_of_form (hw.founded.form kind), fun u hu => ?_⟩
    rw [hw.founded.reaches hu]
    exact built (hw.founded.form kind) fun _ he => by cases he
  built {st t f} hw hf hn hc := by
    refine ⟨lt_size_of_form hf, fun u hu => ?_⟩
    rcases Relation.ReflTransGen.cases_head hu with rfl | ⟨c, hcm, hcu⟩
    · exact built hf hn
    · rw [mentions_of_form hf] at hcm
      exact (hc c hcm).2 u hcu

def InfersIn (st : Store) (X : TypeId → Prop) (t : TypeId) : Prop :=
  ∀ u, st.Reaches t u → ∀ name, st.form? u = some (.infer name) → X u

/-- That all infer variables within reach come from a given set is another one. -/
theorem kind_infersIn (X : TypeId → Prop) : Kind fun st t => t < st.size ∧ st.InfersIn X t := by
  refine kind_everywhere (L := fun st u => ∀ name, st.form? u = some (.infer name) → X u)
    (fun hw he ht h => ?_) (fun hne h => ?_) (fun hf hn name hi => ?_)
  · rw [hw.form_extends he ht]
    exact h
  · rw [filled_form_ne hne]
    exact h
  · exact absurd (Option.some.inj (hf.symm.trans hi)) (hn name)

theorem kind_settled : Kind fun st t => t < st.size ∧ st.Settled t := by
  refine kind_everywhere (L := fun st u => st.cells[u]? ≠ some (.reserved none))
    (fun _ he ht h => ?_) (fun hne h => ?_) (fun hf _ hc => ?_)
  · rw [he.cell ht]
    exact h
  · rw [filled_cell_ne hne]
    exact h
  · simp [form?, lookup, hc, Cell.node?] at hf

theorem WellFormed.inferFree_extends {st st' : Store} (hw : st.WellFormed) (he : st.Extends st')
    {t : TypeId} (ht : t < st.size) : st'.InferFree t ↔ st.InferFree t := by
  refine ⟨fun h u hu name => ?_, fun h => ((kind_infersIn _).later hw he ⟨ht, h⟩).2⟩
  rw [← hw.form_extends he (hw.lt_size_of_reaches ht hu)]
  exact h u ((hw.reaches_extends he ht).mpr hu) name

/-- A scan for infer variables finds the same in every extension. -/
theorem WellFormed.containsInfer_extends {st st' : Store} (hw : st.WellFormed)
    (he : st.Extends st') {t : TypeId} (ht : t < st.size) :
    st'.containsInfer t = st.containsInfer t := by
  have h := hw.inferFree_extends he ht
  rw [← containsInfer_eq_false hw.founded, ← containsInfer_eq_false (he.founded hw.founded)] at h
  cases h₁ : st'.containsInfer t <;> cases h₂ : st.containsInfer t <;> simp_all

/-- To be of two kinds at once is a kind. -/
theorem Kind.and {P Q : Store → TypeId → Prop} (hP : Kind P) (hQ : Kind Q) :
    Kind fun st t => P st t ∧ Q st t where
  lt_size h := hP.lt_size h.1
  later hw he h := ⟨hP.later hw he h.1, hQ.later hw he h.2⟩
  filled hw hc hk hb h := ⟨hP.filled hw hc hk (fun c hm => (hb c hm).1) h.1,
    hQ.filled hw hc hk (fun c hm => (hb c hm).2) h.2⟩
  child hw h hc := ⟨hP.child hw h.1 hc, hQ.child hw h.2 hc⟩
  intrinsic kind hw := ⟨hP.intrinsic kind hw, hQ.intrinsic kind hw⟩
  built hw hf hn hc := ⟨hP.built hw hf hn fun c hm => (hc c hm).1,
    hQ.built hw hf hn fun c hm => (hc c hm).2⟩

namespace Kind

variable {P : Store → TypeId → Prop} (kind : Kind P) {st : Store} (hw : st.WellFormed)

include kind hw

theorem made {st' : Store} (hs : Later st st') {f : Form} {t : TypeId} (hm : Made f t st')
    (hn : ∀ name, f ≠ .infer name) (hc : ∀ c ∈ f.mentions, P st c) : P st' t :=
  kind.built (hs.sound hw) hm.form hn fun c h => kind.later hw hs.grown (hc c h)

theorem mem_flat {types : List TypeId} (ht : ∀ t ∈ types, P st t) {m : TypeId}
    (h : m ∈ st.flat types) : P st m := by
  obtain ⟨⟨t, hmem, rfl | hm⟩, _⟩ := hw.mem_flat h
  · exact ht m hmem
  · exact kind.child hw (ht t hmem) hm

theorem leads_mkUnion {types : List TypeId} (ht : ∀ t ∈ types, P st t) :
    Leads Later (mkUnion types) st fun t st' => P st' t := by
  refine (Store.leads_mkUnion hw fun t h => kind.lt_size (ht t h)).mono fun t st' hs h => ?_
  have hkept {m : TypeId} (hm : m ∈ st.kept types) : P st m :=
    kind.mem_flat hw ht (st.mem_kept_flat types hm)
  cases h with
  | any _ => exact kind.intrinsic .any (hs.sound hw)
  | unknown _ => exact kind.intrinsic .unknown (hs.sound hw)
  | never _ => exact kind.intrinsic .never (hs.sound hw)
  | only h => exact kind.later hw hs.grown (hkept (by simp [h]))
  | members _ hm => exact kind.made hw hs hm nofun fun c => hkept

theorem of_intersection {types : List TypeId} (ht : ∀ t ∈ types, P st t) {t : TypeId}
    (h : IntersectionAnswer st types t) : P st t := by
  have hpart {m u : TypeId} (hu : u ∈ types) (hm : m = u ∨ m ∈ st.mentions u) : P st m := by
    rcases hm with rfl | hm
    · exact ht m hu
    · exact kind.child hw (ht u hu) hm
  cases h with
  | intrinsic h =>
    obtain ⟨k, rfl⟩ := TypeId.isIntrinsic_iff.mp h
    exact kind.intrinsic k hw
  | member hu h => exact hpart hu h
  | members hm h =>
    refine kind.built hw hm.form nofun fun c hc => ?_
    obtain ⟨u, hu, hcu⟩ := h c hc
    exact hpart hu hcu

theorem leads_mkIntersection {types : List TypeId} (ht : ∀ t ∈ types, P st t) :
    Leads Later (mkIntersection types) st fun t st' => P st' t :=
  (Store.leads_mkIntersection hw fun t h => kind.lt_size (ht t h)).mono fun _ _ hs h =>
    kind.of_intersection (hs.sound hw) (fun u hu => kind.later hw hs.grown (ht u hu)) h

/-- Any form is put together from types of the kind, if it is of the kind as an infer variable. -/
theorem leads_build {f : Form} (infer : ∀ name, f = .infer name → ∀ {st : Store} {t : TypeId},
      st.WellFormed → st.form? t = some (.infer name) → P st t) (hc : ∀ c ∈ f.mentions, P st c) :
    Leads Later f.build st fun t st' => P st' t := by
  have hlt : ∀ c ∈ f.mentions, c < st.size := fun c h => kind.lt_size (hc c h)
  have made {act : StoreM TypeId} {f : Form} (h : Leads Later act st (Made f))
      (hn : ∀ name, f ≠ .infer name) (hc : ∀ c ∈ f.mentions, P st c) :
      Leads Later act st fun t st' => P st' t :=
    h.mono fun _ _ hs hm => kind.made hw hs hm hn hc
  cases f with
  | intrinsic k => exact Leads.pure (kind.intrinsic k hw)
  | literal value => exact made (leads_mkLiteral hw value) (by simp) hc
  | infer name =>
    exact (leads_mkInfer hw name).mono fun _ _ hs hm => infer name rfl (hs.sound hw) hm.form
  | param name => exact made (leads_mkParam hw name) (by simp) hc
  | union members => exact kind.leads_mkUnion hw hc
  | intersection members => exact kind.leads_mkIntersection hw hc
  | object shape => exact made (leads_mkObject hw hlt) (by simp) hc
  | array element =>
    exact made (leads_mkArray hw (hlt element (by simp [Form.mentions]))) (by simp) hc
  | tuple slots => exact made (leads_mkTuple hw hlt) (by simp) hc
  | function signature => exact made (leads_mkFunction hw hlt) (by simp) hc
  | constructor signature =>
    exact made (leads_mkConstructor hw fun c h => hlt c (Form.mem_constructor h)) (by simp)
      fun c h => hc c (Form.mem_constructor h)
  | wrapper k args => exact made (leads_mkWrapper hw hlt) (by simp) hc

theorem leads_elementType {slot : Slot} (h : P st slot.type) :
    Leads Later (Matcher.elementType slot) st fun e st' => P st' e ∧ st'.Element slot e := by
  have hlt := kind.lt_size h
  suffices hrun : Later st ((Matcher.elementType slot).run st).2 ∧
      P ((Matcher.elementType slot).run st).2 ((Matcher.elementType slot).run st).1 from
    leads_run hrun.1 ⟨hrun.2, hw.element_again _ hlt (.refl _) hrun.1.grown⟩
  have hrefl : Later st st := Evolution.refl st
  rw [run_elementType]
  split
  · exact ⟨hrefl, h⟩
  · split
    · rename_i element hl
      refine ⟨hrefl, kind.child hw h (mentions_of_form (form_of_lookup hl) ▸ ?_)⟩
      exact List.mem_singleton.mpr rfl
    · rename_i elements hl
      exact kind.leads_mkUnion hw fun t ht =>
        kind.child hw h (mentions_of_form (form_of_lookup hl) ▸ ht)
    · exact ⟨hrefl, h⟩

theorem leads_remainder {slots : List Slot} (h : ∀ slot ∈ slots, P st slot.type) :
    Leads Later (Matcher.remainder slots) st fun e st' => P st' e ∧ st'.Remainder slots e := by
  have htuple : Leads Later (mkTuple slots) st fun e st' => P st' e := by
    have hc : ∀ c ∈ slots.map Slot.type, P st c := by
      intro c hc
      obtain ⟨slot, hm, rfl⟩ := List.mem_map.mp hc
      exact h slot hm
    exact (leads_mkTuple hw fun c hm => kind.lt_size (hc c hm)).mono fun t st' hs hm =>
      kind.made hw hs hm (by simp) hc
  have hkind : Leads Later (Matcher.remainder slots) st fun e st' => P st' e := by
    unfold Matcher.remainder
    split
    · split
      · exact Leads.pure (h _ (by simp))
      · exact htuple
    · exact htuple
  exact ⟨hkind.1, hkind.2, repeats_remainder slots _ (Extends.refl _).grows⟩

/-- What stands for a subject in the questions about its parts is of its kind. -/
theorem subjectPart {s a : TypeId} (hs : P st s) (h : st.SubjectPart s a) : P st a := by
  have hslot {f : Form} (hf : st.form? s = some f) {slot : Slot} (hm : slot ∈ f.slots) :
      P st slot.type :=
    kind.child hw hs (mentions_of_form hf ▸ Form.slot_mentioned hm)
  cases h with
  | mention h => exact kind.child hw hs h
  | @element f slot _ hf hm h =>
    obtain ⟨_, he, _⟩ := kind.leads_elementType hw (hslot hf hm)
    have hrun : Action.run (Matcher.elementType slot) st = (a, st) := h
    rw [hrun] at he
    exact he
  | @remainder f n _ hf h =>
    obtain ⟨_, he, _⟩ := kind.leads_remainder hw fun slot hm => hslot hf (List.mem_of_mem_drop hm)
    have hrun : Action.run (Matcher.remainder (f.slots.drop n)) st = (a, st) := h
    rw [hrun] at he
    exact he
  | unknown => exact kind.intrinsic .unknown hw

end Kind

/-- A type of the store from which no infer variable and no empty placeholder can be reached. -/
structure Concrete (st : Store) (t : TypeId) : Prop where
  valid : t < st.size
  inferFree : st.InferFree t
  settled : st.Settled t

theorem kind_concrete : Kind Concrete := by
  have he : Concrete = fun st t =>
      (t < st.size ∧ st.InfersIn (fun _ => False) t) ∧ t < st.size ∧ st.Settled t := by
    funext st t
    exact propext ⟨fun h => ⟨⟨h.valid, h.inferFree⟩, h.valid, h.settled⟩,
      fun h => ⟨h.1.1, h.1.2, h.2.2⟩⟩
  rw [he]
  exact (kind_infersIn fun _ => False).and kind_settled

theorem Concrete.defined {st : Store} {t : TypeId} (h : st.Concrete t) :
    ∃ f, st.form? t = some f := by
  obtain ⟨cell, hc⟩ : ∃ cell, st.cells[t]? = some cell := ⟨_, List.getElem?_eq_getElem h.valid⟩
  obtain ⟨node, hn⟩ : ∃ node, cell.node? = some node := by
    cases cell with
    | interned node => exact ⟨node, rfl⟩
    | reserved body =>
      cases body with
      | none => exact absurd hc (h.settled t .refl)
      | some node => exact ⟨node, rfl⟩
  exact ⟨st.form node, form_of_lookup (by simp [lookup, hc, hn])⟩

end TypeCalculus.Store
