import TypeCalculus.Evaluator.Mapping
import TypeCalculus.Proofs.Evaluation

namespace TypeCalculus

theorem forall₂_of_mem {α β : Type} {R R' : α → β → Prop} {xs : List α} {ys : List β}
    (h : List.Forall₂ R xs ys) (hR : ∀ x ∈ xs, ∀ y, R x y → R' x y) : List.Forall₂ R' xs ys := by
  induction h with
  | nil => exact .nil
  | @cons x y _ _ hxy _ ih =>
    apply List.Forall₂.cons (hR x (by simp) y hxy)
    apply ih
    intro z hz
    exact hR z (by simp [hz])

theorem forall₂_unique {α β : Type} {R R' : α → β → Prop} {xs : List α} {ys zs : List β}
    (h : List.Forall₂ R xs ys) (h' : List.Forall₂ R' xs zs)
    (hR : ∀ x ∈ xs, ∀ y z, R x y → R' x z → y = z) : ys = zs := by
  induction h generalizing zs with
  | nil =>
    cases h'
    rfl
  | @cons x y _ _ hxy _ ih =>
    cases h' with
    | cons hxz hrest =>
      rw [hR x (by simp) _ _ hxy hxz, ih hrest]
      intro w hw
      exact hR w (by simp [hw])

theorem mem_left_of_forall₂ {α β : Type} {R : α → β → Prop} {xs : List α} {ys : List β}
    (h : List.Forall₂ R xs ys) {x : α} (hx : x ∈ xs) : ∃ y ∈ ys, R x y := by
  obtain ⟨y, hy, hr⟩ := mem_right_of_forall₂ h.flip hx
  exact ⟨y, hy, hr⟩

namespace Mapping

def maps (m : Mapping) : Form → Bool
  | .object _ => true
  | .array _ | .tuple _ => m.keys = .all
  | _ => false

def values (m : Mapping) : Form → List TypeId
  | .object shape => (shape.fields.filter (m.keys.accepts ·.name)).map Field.type ++
    if m.keys.keepsIndex then shape.index.toList.map IndexSignature.type else []
  | .array element => if m.keys = .all then [element] else []
  | .tuple slots => if m.keys = .all then slots.map Slot.type else []
  | _ => []

variable {m : Mapping}

theorem values_mentions {f : Form} {v : TypeId} (h : v ∈ m.values f) : v ∈ f.mentions := by
  cases f with
  | object shape =>
    simp only [values, List.mem_append, List.mem_map, List.mem_filter] at h
    simp only [Form.mentions, Shape.types, List.mem_append, List.mem_map]
    rcases h with ⟨field, ⟨hm, _⟩, rfl⟩ | h
    · exact .inl ⟨field, hm, rfl⟩
    · split at h
      · exact .inr (List.mem_map.mp h)
      · cases h
  | array element =>
    change v ∈ if m.keys = .all then [element] else [] at h
    split at h
    · exact h
    · cases h
  | tuple slots =>
    change v ∈ if m.keys = .all then slots.map Slot.type else [] at h
    split at h
    · exact h
    · cases h
  | _ => cases h

theorem mem_values_field {shape : Shape} {x : Field}
    (hx : x ∈ shape.fields.filter (m.keys.accepts ·.name)) : x.type ∈ m.values (.object shape) :=
  List.mem_append_left _ (List.mem_map_of_mem hx)

theorem mem_values_index {shape : Shape} {x : IndexSignature} (hx : shape.index = some x)
    (hk : m.keys.keepsIndex = true) : x.type ∈ m.values (.object shape) := by
  simp [values, hx, hk]

theorem mem_values_array {element : TypeId} (hk : m.keys = .all) :
    element ∈ m.values (.array element) := by
  simp [values, hk]

theorem mem_values_slot {slots : List Slot} {x : Slot} (hk : m.keys = .all) (hx : x ∈ slots) :
    x.type ∈ m.values (.tuple slots) := by
  simp only [values, hk, if_true]
  exact List.mem_map_of_mem hx

end Mapping

namespace Evaluator

open Mapping (mem_values_field mem_values_index mem_values_array mem_values_slot)

section Parts

variable (mapping : Mapping) (R : TypeId → TypeId → Prop)

def FieldMapped (x y : Field) : Prop :=
  R x.type y.type ∧ y = { x with
    type := y.type
    optional := Modifier.apply mapping.optional x.optional
    readonly := Modifier.apply mapping.readonly x.readonly }

def IndexMapped : Option IndexSignature → Option IndexSignature → Prop
  | none, none => True
  | some x, some y => mapping.keys.keepsIndex = true ∧ R x.type y.type ∧
    y.readonly = Modifier.apply mapping.readonly x.readonly
  | some _, none => mapping.keys.keepsIndex = false
  | none, some _ => False

def SlotMapped (x y : Slot) : Prop :=
  R x.type y.type ∧ y = { x with
    type := y.type
    optional := !x.rest && Modifier.apply mapping.optional x.optional }

inductive Mapped : Form → Form → Prop
  | object {x y : Shape}
    (hf : List.Forall₂ (FieldMapped mapping R) (x.fields.filter (mapping.keys.accepts ·.name))
      y.fields)
    (hi : IndexMapped mapping R x.index y.index) : Mapped (.object x) (.object y)
  | array {x y : TypeId} (hk : mapping.keys = .all) (h : R x y) : Mapped (.array x) (.array y)
  | tuple {xs ys : List Slot} (hk : mapping.keys = .all)
    (h : List.Forall₂ (SlotMapped mapping R) xs ys) : Mapped (.tuple xs) (.tuple ys)

/-- The forms that are mapped to `never`. Arrays and tuples are, if some keys are left out. -/
def Unmapped (f : Option Form) : Prop :=
  ∀ x, f = some x → x.isContainer = true → mapping.keys ≠ .all ∧ ∀ shape, x ≠ .object shape

variable {mapping R}

theorem unmapped_of_maps {f : Option Form} (h : ∀ x, f = some x → mapping.maps x = false) :
    Unmapped mapping f := by
  intro x hx hc
  have hm := h x hx
  cases x with
  | object shape => cases hm
  | array | tuple => exact ⟨of_decide_eq_false hm, fun _ he => by cases he⟩
  | _ => cases hc

variable {R' : TypeId → TypeId → Prop} {f y z : Form}

theorem Mapped.source (h : Mapped mapping R f y) : f.isContainer = true := by
  cases h <;> rfl

theorem Mapped.container (h : Mapped mapping R f y) : y.isContainer = true := by
  cases h <;> rfl

/-- What a mapping makes of a form is built just as it is. -/
theorem Mapped.isExact (h : Mapped mapping R f y) : y.isExact = true := by
  cases h <;> rfl

theorem Mapped.mentions (h : Mapped mapping R f y) {c : TypeId} (hc : c ∈ y.mentions) :
    ∃ x, R x c := by
  cases h with
  | @object x y hf hi =>
    rcases List.mem_append.mp hc with hc | hc
    · obtain ⟨field, hm, rfl⟩ := List.mem_map.mp hc
      obtain ⟨z, _, hz, _⟩ := mem_right_of_forall₂ hf hm
      exact ⟨_, hz⟩
    · obtain ⟨index, hm, rfl⟩ := List.mem_map.mp hc
      rw [Option.mem_toList] at hm
      cases hx : x.index <;> simp only [hx, hm, IndexMapped] at hi
      exact ⟨_, hi.2.1⟩
  | array _ h =>
    obtain rfl := List.mem_singleton.mp hc
    exact ⟨_, h⟩
  | tuple _ h =>
    obtain ⟨slot, hm, rfl⟩ := List.mem_map.mp hc
    obtain ⟨z, _, hz, _⟩ := mem_right_of_forall₂ h hm
    exact ⟨_, hz⟩

/-- What is made of a form depends on what becomes of the values that are mapped. -/
theorem Mapped.mono_values (h : Mapped mapping R f y)
    (hR : ∀ v ∈ mapping.values f, ∀ b, R v b → R' v b) : Mapped mapping R' f y := by
  cases h with
  | @object x y hf hi =>
    apply Mapped.object
    · apply forall₂_of_mem hf
      intro field hm other hfield
      exact ⟨hR _ (mem_values_field hm) _ hfield.1, hfield.2⟩
    · cases hx : x.index <;> cases hy : y.index <;> simp only [hx, hy] at hi ⊢
      · exact hi
      · exact hi.elim
      · exact hi
      · exact ⟨hi.1, hR _ (mem_values_index hx hi.1) _ hi.2.1, hi.2.2⟩
  | array hk h => exact .array hk (hR _ (mem_values_array hk) _ h)
  | tuple hk h =>
    apply Mapped.tuple hk
    apply forall₂_of_mem h
    intro slot hm other hslot
    exact ⟨hR _ (mem_values_slot hk hm) _ hslot.1, hslot.2⟩

theorem Mapped.mono (hR : ∀ x y, R x y → R' x y) (h : Mapped mapping R f y) :
    Mapped mapping R' f y :=
  h.mono_values fun v _ => hR v

/-- What is made of a form is determined by what becomes of the values. -/
theorem Mapped.unique (h : Mapped mapping R f y) (h' : Mapped mapping R' f z)
    (hR : ∀ v ∈ mapping.values f, ∀ b c, R v b → R' v c → b = c) : y = z := by
  cases h with
  | @object x y hf hi =>
    cases h' with
    | @object _ z hf' hi' =>
      have hfields : y.fields = z.fields := by
        apply forall₂_unique hf hf'
        intro field hm a b ha hb
        rw [ha.2, hb.2, hR _ (mem_values_field hm) _ _ ha.1 hb.1]
      have hindex : y.index = z.index := by
        cases hx : x.index with
        | none =>
          cases hy : y.index <;> simp only [hx, hy, IndexMapped] at hi
          cases hz : z.index <;> simp only [hx, hz, IndexMapped] at hi'
          rfl
        | some i =>
          cases hy : y.index <;> cases hz : z.index <;>
            simp only [hx, hy, hz, IndexMapped] at hi hi'
          · rfl
          · rw [hi] at hi'
            cases hi'.1
          · rw [hi'] at hi
            cases hi.1
          · rename_i a b
            have htype := hR _ (mem_values_index hx hi.1) _ _ hi.2.1 hi'.2.1
            have hreadonly := hi.2.2.trans hi'.2.2.symm
            cases a
            cases b
            cases htype
            cases hreadonly
            rfl
      cases y
      cases z
      cases hfields
      cases hindex
      rfl
  | array hk h =>
    cases h' with
    | array _ h' => rw [hR _ (mem_values_array hk) _ _ h h']
  | tuple hk h =>
    cases h' with
    | tuple _ h' =>
      congr 1
      apply forall₂_unique h h'
      intro slot hm a b ha hb
      rw [ha.2, hb.2, hR _ (mem_values_slot hk hm) _ _ ha.1 hb.1]

/-- Each value that is mapped has become something. -/
theorem Mapped.answered (h : Mapped mapping R f y) {v : TypeId} (hv : v ∈ mapping.values f) :
    ∃ b, R v b := by
  cases h with
  | @object x y hf hi =>
    rcases List.mem_append.mp hv with hv | hv
    · obtain ⟨field, hm, rfl⟩ := List.mem_map.mp hv
      obtain ⟨other, _, hr⟩ := mem_left_of_forall₂ hf hm
      exact ⟨_, hr.1⟩
    · split at hv
      · rename_i hk
        obtain ⟨i, hm, rfl⟩ := List.mem_map.mp hv
        rw [Option.mem_toList] at hm
        cases hy : y.index <;> simp only [hm, hy, IndexMapped] at hi
        · rw [hk] at hi
          cases hi
        · exact ⟨_, hi.2.1⟩
      · cases hv
  | @array x y hk h =>
    have hv : v = x := by simpa [Mapping.values, hk] using hv
    exact ⟨y, hv ▸ h⟩
  | @tuple xs ys hk h =>
    simp only [Mapping.values, hk, if_true] at hv
    obtain ⟨slot, hm, rfl⟩ := List.mem_map.mp hv
    obtain ⟨other, _, hr⟩ := mem_left_of_forall₂ h hm
    exact ⟨_, hr.1⟩

/-- What is made of an object has no key twice if the object has none. -/
theorem Mapped.admissible (h : Mapped mapping R f y) (hf : f.Admissible) : y.Admissible := by
  cases h with
  | @object x y hfields _ =>
    have hnames : y.fields.map Field.name =
        (x.fields.filter (mapping.keys.accepts ·.name)).map Field.name := by
      refine List.forall₂_eq_eq_eq ▸ List.forall₂_map_left_iff.mpr
        (List.forall₂_map_right_iff.mpr ?_)
      exact hfields.flip.imp fun _ _ h => by rw [h.2]
    show (y.fields.map Field.name).Nodup
    rw [hnames]
    exact List.Nodup.sublist (List.filter_sublist.map _) hf
  | array | tuple => trivial

/-- What is not mapped has no values to map. -/
theorem Unmapped.values {g : Option Form} (h : Unmapped mapping g) :
    g.toList.flatMap mapping.values = [] := by
  cases g with
  | none => rfl
  | some f =>
    have hf := h f rfl
    simp only [Option.toList_some, List.flatMap_cons, List.flatMap_nil, List.append_nil]
    cases f with
    | object shape => exact absurd rfl ((hf rfl).2 shape)
    | array element => simp [Mapping.values, (hf rfl).1]
    | tuple slots => simp [Mapping.values, (hf rfl).1]
    | _ => rfl

end Parts

section Structure

variable (mapping : Mapping) (member : TypeId → EvalM TypeId)

def mapForm : Form → EvalM Form
  | .object shape => return .object (← mapShape mapping member shape)
  | .array element => return .array (← mapValue mapping member element)
  | .tuple slots => return .tuple (← slots.mapM (mapElement mapping member))
  | form => return form

def mapFound : Option Form → EvalM TypeId
  | some form =>
      if mapping.maps form then do (← mapForm mapping member form).build else return .never
  | none => return .never

/-- A mapping looks at the form of its subject. -/
theorem mapStructure_eq (n : TypeId) : mapStructure mapping member n =
    getThe Store >>= fun st => mapFound mapping member (st.form? n) := by
  unfold mapStructure
  congr 1
  funext st
  unfold Store.form?
  cases st.lookup n with
  | none => rfl
  | some node =>
    cases node with
    | array element | tuple elements =>
      cases hk : mapping.keys <;>
        simp [Store.form, mapFound, Mapping.maps, mapForm, Form.build, hk]
    | object shape => simp [Store.form, mapFound, Mapping.maps, mapForm, Form.build]
    | _ => rfl

theorem mapInner_eq (t : TypeId) : mapInner member t = getThe Store >>= fun st =>
    if (st.lookup t).any Node.isContainer then member t else pure t := by
  unfold mapInner
  refine bind_congr fun st => ?_
  rcases st.lookup t with _ | node
  · rfl
  · cases node <;> rfl

variable {mapping member}

/-- The values of a form are mapped as `R` says. The invariant `I` is about those that have been
mapped so far. -/
structure MapsValues (W : State → State → Prop) (I : List TypeId → State → Prop)
    (R : TypeId → TypeId → State → Prop) (mapping : Mapping) (member : TypeId → EvalM TypeId)
    (f : Form) (s : State) : Prop where
  stable (v a : TypeId) : StableFrom W s (R v a)
  value {v : TypeId} (hv : v ∈ mapping.values f) {done : List TypeId} {s' : State} (h : W s s')
    (hi : I done s') :
    Leads W (mapValue mapping member v) s' fun a s'' => I (done ++ [v]) s'' ∧ R v a s''

namespace MapsValues

variable {W : State → State → Prop} [Evolution W] {I : List TypeId → State → Prop}
variable {R : TypeId → TypeId → State → Prop} {s : State}

theorem index {x : Shape} (h : MapsValues W I R mapping member (.object x) s)
    {done : List TypeId} {s' : State} (hs : W s s') (hi : I done s') :
    Leads W (mapIndex mapping member x.index) s' fun y s'' =>
      I (done ++
          if mapping.keys.keepsIndex then x.index.toList.map IndexSignature.type else []) s'' ∧
        IndexMapped mapping (R · · s'') x.index y := by
  cases hx : x.index with
  | none =>
    rw [Option.toList_none, List.map_nil, ite_self, List.append_nil]
    exact Leads.pure ⟨hi, trivial⟩
  | some i =>
    show Leads W (if mapping.keys.keepsIndex then _ else _) s' _
    split
    · rename_i hk
      apply (h.value (mem_values_index hx hk) hs hi).bind
      intro a s'' _ ha
      exact Leads.pure ⟨ha.1, hk, ha.2, rfl⟩
    · rename_i hk
      rw [List.append_nil]
      exact Leads.pure ⟨hi, by simpa [IndexMapped] using hk⟩

theorem shape {x : Shape} (h : MapsValues W I R mapping member (.object x) s) (hi : I [] s) :
    Leads W (mapShape mapping member x) s fun y s' => I (mapping.values (.object x)) s' ∧
      Mapped mapping (R · · s') (.object x) (.object y) := by
  have hfields : Leads W
      ((x.fields.filter (mapping.keys.accepts ·.name)).mapM (mapField mapping member)) s
      fun ys s' => I ([] ++ (x.fields.filter (mapping.keys.accepts ·.name)).map Field.type) s' ∧
        List.Forall₂ (FieldMapped mapping (R · · s'))
          (x.fields.filter (mapping.keys.accepts ·.name)) ys := by
    apply Leads.mapM_along _ hi
    · exact fun _ _ _ _ h₁ h₂ hf => ⟨h.stable _ _ h₁ h₂ hf.1, hf.2⟩
    · intro field hm done s' h' hi'
      exact (h.value (mem_values_field hm) h' hi').bind fun _ _ _ ha =>
        Leads.pure ⟨ha.1, ha.2, rfl⟩
  apply hfields.bind
  intro fields s₁ h₁ hf
  apply (h.index h₁ hf.1).bind
  intro index s₂ h₂ hindex
  refine Leads.pure ⟨hindex.1, .object ?_ hindex.2⟩
  exact hf.2.imp fun _ _ hxy => ⟨h.stable _ _ h₁ h₂ hxy.1, hxy.2⟩

/-- All that mapping a form comes to, from what mapping its values comes to. -/
theorem form {f : Form} (h : MapsValues W I R mapping member f s) (hm : mapping.maps f = true)
    (hi : I [] s) :
    Leads W (mapForm mapping member f) s fun y s' =>
      I (mapping.values f) s' ∧ Mapped mapping (R · · s') f y := by
  cases f with
  | object x => exact (h.shape hi).bind fun _ _ _ hy => Leads.pure hy
  | array element =>
    have hk : mapping.keys = .all := of_decide_eq_true hm
    apply (h.value (mem_values_array hk) (Evolution.refl s) hi).bind
    intro a s' _ ha
    refine Leads.pure ⟨?_, .array hk ha.2⟩
    simpa [Mapping.values, hk] using ha.1
  | tuple slots =>
    have hk : mapping.keys = .all := of_decide_eq_true hm
    have hslots : Leads W (slots.mapM (mapElement mapping member)) s fun ys s' =>
        I ([] ++ slots.map Slot.type) s' ∧
        List.Forall₂ (SlotMapped mapping (R · · s')) slots ys := by
      apply Leads.mapM_along _ hi
      · exact fun _ _ _ _ h₁ h₂ hf => ⟨h.stable _ _ h₁ h₂ hf.1, hf.2⟩
      · intro slot hslot done s' h' hi'
        exact (h.value (mem_values_slot hk hslot) h' hi').bind fun _ _ _ ha =>
          Leads.pure ⟨ha.1, ha.2, rfl⟩
    apply hslots.bind
    intro ys s' _ hys
    refine Leads.pure ⟨?_, .tuple hk hys.2⟩
    simpa [Mapping.values, hk] using hys.1
  | _ => cases hm

/-- The values of a type are mapped one after the other and put together again, if the type is
mapped at all. -/
theorem leads {n : TypeId} {B : Form → TypeId → State → Prop}
    (h : ∀ f, s.2.form? n = some f → MapsValues W I R mapping member f s) (hi : I [] s)
    (hbuild : ∀ f y s', s.2.form? n = some f → W s s' → I (mapping.values f) s' →
      Mapped mapping (R · · s') f y →
      Leads W (liftM y.build : EvalM TypeId) s' fun a s'' => I (mapping.values f) s'' ∧ B y a s'') :
    Leads W (mapStructure mapping member n) s fun a s' =>
      (∃ f, s.2.form? n = some f ∧ I (mapping.values f) s' ∧
        ∃ y, Mapped mapping (R · · s') f y ∧ B y a s') ∨
      Unmapped mapping (s.2.form? n) ∧ a = .never ∧ s' = s := by
  rw [mapStructure_eq]
  apply leads_getStore
  cases hf : s.2.form? n with
  | none => exact Leads.pure (.inr ⟨(fun _ h => by cases h), rfl, rfl⟩)
  | some f =>
    show Leads W (if mapping.maps f then _ else _) s _
    split
    · rename_i hm
      apply ((h f hf).form hm hi).bind
      intro y s₁ h₁ hy
      apply (hbuild f y s₁ hf h₁ hy.1 hy.2).mono
      intro a s₂ h₂ hb
      exact .inl ⟨f, rfl, hb.1, y, hy.2.mono fun _ _ => (h f hf).stable _ _ h₁ h₂, hb.2⟩
    · rename_i hm
      refine Leads.pure (.inr ⟨unmapped_of_maps fun x hx => ?_, rfl, rfl⟩)
      cases hx
      simpa using hm

end MapsValues

/-- The same, where nothing is kept of the order. -/
theorem leads_mapStructure {W : State → State → Prop} [Evolution W]
    {R : TypeId → TypeId → State → Prop} {s : State} {n : TypeId} {B : Form → TypeId → State → Prop}
    (stable : ∀ v a, StableFrom W s (R v a))
    (hmap : ∀ s', W s s' → ∀ v ∈ s.2.mentions n, Leads W (mapValue mapping member v) s' (R v))
    (hbuild : ∀ f y s', s.2.form? n = some f → W s s' → Mapped mapping (R · · s') f y →
      Leads W (liftM y.build : EvalM TypeId) s' (B y)) :
    Leads W (mapStructure mapping member n) s fun a s' =>
      (∃ f, s.2.form? n = some f ∧ ∃ y, Mapped mapping (R · · s') f y ∧ B y a s') ∨
        Unmapped mapping (s.2.form? n) ∧ a = .never ∧ s' = s := by
  have hvalues (f : Form) (hf : s.2.form? n = some f) :
      MapsValues W (fun _ _ => True) R mapping member f s := by
    refine ⟨stable, fun hv _ _ h' _ => ?_⟩
    have hmem := Store.mentions_of_form hf ▸ Mapping.values_mentions hv
    exact (hmap _ h' _ hmem).mono fun _ _ _ ha => ⟨trivial, ha⟩
  apply (MapsValues.leads hvalues trivial fun f y s' hf h' _ hy =>
    (hbuild f y s' hf h' hy).mono fun _ _ _ hb => ⟨trivial, hb⟩).mono
  rintro a s' _ (⟨f, hf, _, hy⟩ | hu)
  · exact .inl ⟨f, hf, hy⟩
  · exact .inr hu

end Structure

end Evaluator

end TypeCalculus
