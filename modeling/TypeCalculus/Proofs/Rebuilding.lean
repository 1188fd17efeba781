import TypeCalculus.Proofs.Kinds
import TypeCalculus.Proofs.Reassembly
import TypeCalculus.Substitution

namespace TypeCalculus.Substitution

open Store (Later Made)

abbrev State := Substitution × Store

section Parts

variable (R : TypeId → TypeId → Prop) (S : Slot → List Slot → Prop)

def FieldLike (x y : Field) : Prop := R x.type y.type ∧ y = { x with type := y.type }

def IndexLike : Option IndexSignature → Option IndexSignature → Prop
  | none, none => True
  | some x, some y => R x.type y.type ∧ y.readonly = x.readonly
  | _, _ => False

def ReceiverLike : Option TypeId → Option TypeId → Prop
  | none, none => True
  | some x, some y => R x y
  | _, _ => False

def SlotsLike (xs ys : List Slot) : Prop :=
  ∃ parts, List.Forall₂ S xs parts ∧ ys = parts.flatten

/-- Two forms that differ in their parts: types correspond by the one relation, and slots to
several by the other. -/
inductive FormLike : Form → Form → Prop
  | union {xs ys : List TypeId} (h : List.Forall₂ R xs ys) : FormLike (.union xs) (.union ys)
  | intersection {xs ys : List TypeId} (h : List.Forall₂ R xs ys) :
    FormLike (.intersection xs) (.intersection ys)
  | object {x y : Shape} (hf : List.Forall₂ (FieldLike R) x.fields y.fields)
    (hi : IndexLike R x.index y.index) : FormLike (.object x) (.object y)
  | array {x y : TypeId} (h : R x y) : FormLike (.array x) (.array y)
  | tuple {xs ys : List Slot} (h : SlotsLike S xs ys) : FormLike (.tuple xs) (.tuple ys)
  | function {x y : Signature} (hr : ReceiverLike R x.receiver y.receiver)
    (hp : SlotsLike S x.params y.params) (h : R x.result y.result) :
    FormLike (.function x) (.function y)
  | constructor {x : Signature} {params : List Slot} {result : TypeId}
    (hp : SlotsLike S x.params params) (h : R x.result result) :
    FormLike (.constructor x) (.constructor { params, result })
  | wrapper {kind : Wrapper} {xs ys : List TypeId} (h : List.Forall₂ R xs ys) :
    FormLike (.wrapper kind xs) (.wrapper kind ys)

def SlotLike (st : Store) (slot : Slot) (slots : List Slot) : Prop :=
  ∃ t, R slot.type t ∧ (slots = [{ slot with type := t }] ∨
    slot.rest = true ∧ st.form? t = some (.tuple slots))

def SlotSpliced (st : Store) (slot : Slot) (slots : List Slot) : Prop :=
  ∃ t, R slot.type t ∧ slots = st.splice slot t

inductive Rebuilt (st : Store) (infers params : Bindings) (t : TypeId) : Option Form → TypeId → Prop
  | undefined : Rebuilt st infers params t none t
  | intrinsic {kind : Intrinsic} : Rebuilt st infers params t (some (.intrinsic kind)) t
  | literal {value : Literal} : Rebuilt st infers params t (some (.literal value)) t
  | infer {name : String} :
    Rebuilt st infers params t (some (.infer name)) ((infers.get? name).getD .never)
  | param {name : String} :
    Rebuilt st infers params t (some (.param name)) ((params.get? name).getD t)
  | built {x y : Form} {a : TypeId} (h : FormLike R (SlotSpliced R st) x y)
    (hb : y.build.run st = (a, st)) : Rebuilt st infers params t (some x) a

variable {R S}

section Mono

variable {R' : TypeId → TypeId → Prop} {S' : Slot → List Slot → Prop}
variable (hR : ∀ x y, R x y → R' x y) (hS : ∀ x ys, S x ys → S' x ys)

theorem SlotsLike.mono {xs ys : List Slot} (hS : ∀ x ys, S x ys → S' x ys)
    (h : SlotsLike S xs ys) : SlotsLike S' xs ys := by
  obtain ⟨parts, hp, he⟩ := h
  exact ⟨parts, hp.imp hS, he⟩

include hR

theorem FieldLike.mono {x y : Field} (h : FieldLike R x y) : FieldLike R' x y :=
  ⟨hR _ _ h.1, h.2⟩

theorem IndexLike.mono {x y : Option IndexSignature} (h : IndexLike R x y) : IndexLike R' x y := by
  cases x <;> cases y <;> first | exact h | exact ⟨hR _ _ h.1, h.2⟩

theorem ReceiverLike.mono {x y : Option TypeId} (h : ReceiverLike R x y) : ReceiverLike R' x y := by
  cases x <;> cases y <;> first | exact h | exact hR _ _ h

include hS in
theorem FormLike.mono {x y : Form} (h : FormLike R S x y) : FormLike R' S' x y := by
  cases h with
  | union h => exact .union (h.imp hR)
  | intersection h => exact .intersection (h.imp hR)
  | object hf hi => exact .object (hf.imp fun _ _ h => h.mono hR) (hi.mono hR)
  | array h => exact .array (hR _ _ h)
  | tuple h => exact .tuple (h.mono hS)
  | function hr hp h => exact .function (hr.mono hR) (hp.mono hS) (hR _ _ h)
  | constructor hp h => exact .constructor (hp.mono hS) (hR _ _ h)
  | wrapper h => exact .wrapper (h.imp hR)

theorem SlotLike.mono {st st' : Store} (hf : ∀ t slots, st.form? t = some (.tuple slots) →
    st'.form? t = some (.tuple slots)) (x : Slot) (ys : List Slot) (h : SlotLike R st x ys) :
    SlotLike R' st' x ys := by
  obtain ⟨t, ht, hy⟩ := h
  exact ⟨t, hR _ _ ht, hy.imp_right fun hy => ⟨hy.1, hf _ _ hy.2⟩⟩

theorem Rebuilt.mono {st : Store} {infers params : Bindings} {t a : TypeId} {form : Option Form}
    (h : Rebuilt R st infers params t form a) : Rebuilt R' st infers params t form a := by
  cases h with
  | undefined => exact .undefined
  | intrinsic => exact .intrinsic
  | literal => exact .literal
  | infer => exact .infer
  | param => exact .param
  | built h hb => exact .built (h.mono hR fun _ _ ⟨t, ht, he⟩ => ⟨t, hR _ _ ht, he⟩) hb

end Mono

theorem SlotSpliced.mono {st st' : Store} {R' : TypeId → TypeId → Prop}
    (hR : ∀ x y, R x y → R' x y ∧ st'.form? y = st.form? y) {slot : Slot} {slots : List Slot}
    (h : SlotSpliced R st slot slots) : SlotSpliced R' st' slot slots := by
  obtain ⟨t, ht, rfl⟩ := h
  exact ⟨t, (hR _ _ ht).1, (Store.splice_congr slot (hR _ _ ht).2).symm⟩

theorem SlotSpliced.like {st : Store} {slot : Slot} {slots : List Slot}
    (h : SlotSpliced R st slot slots) : SlotLike R st slot slots := by
  obtain ⟨t, ht, rfl⟩ := h
  refine ⟨t, ht, ?_⟩
  unfold Store.splice
  split
  · rename_i hrest hf
    exact .inr ⟨hrest, hf⟩
  · exact .inl rfl

theorem SlotsLike.forall_types {P : TypeId → Prop} (hS : ∀ x ys, S x ys → ∀ y ∈ ys, P y.type)
    {xs ys : List Slot} (h : SlotsLike S xs ys) : ∀ c ∈ ys.map Slot.type, P c := by
  obtain ⟨parts, hp, rfl⟩ := h
  intro c hc
  obtain ⟨slot, hslot, rfl⟩ := List.mem_map.mp hc
  obtain ⟨part, hpart, hm⟩ := List.mem_flatten.mp hslot
  obtain ⟨x, _, hx⟩ := mem_right_of_forall₂ hp hpart
  exact hS x part hx slot hm

theorem FieldLike.names {xs ys : List Field} (h : List.Forall₂ (FieldLike R) xs ys) :
    ys.map Field.name = xs.map Field.name := by
  induction h with
  | nil => rfl
  | cons hxy _ ih => rw [List.map_cons, List.map_cons, ih, hxy.2]

namespace FormLike

variable {x y : Form}

theorem isContainer (h : FormLike R S x y) : y.isContainer = x.isContainer := by
  cases h <;> rfl

theorem isExact (h : FormLike R S x y) (hu : x.isUnion = false) (hi : x.isIntersection = false) :
    y.isExact = true := by
  cases h with
  | union => cases hu
  | intersection => cases hi
  | _ => rfl

theorem isExact_container (h : FormLike R S x y) (hx : x.isContainer = true) :
    y.isExact = true := by
  cases h <;> first | rfl | cases hx

/-- Names of fields and numbers of arguments are kept. -/
theorem admissible (h : FormLike R S x y) (hx : x.Admissible) : y.Admissible := by
  cases h with
  | @object x y hf hi =>
    show (y.fields.map Field.name).Nodup
    rw [FieldLike.names hf]
    exact hx
  | @wrapper kind xs ys h =>
    show kind.Takes ys.length
    rw [← h.length_eq]
    exact hx
  | _ => trivial

section Mentions

variable {P : TypeId → Prop} (hR : ∀ x y, R x y → P y) (hS : ∀ x ys, S x ys → ∀ y ∈ ys, P y.type)

include hR hS

/-- Whatever holds of all that parts correspond to holds of the parts of the second form. -/
theorem forall_mentions (h : FormLike R S x y) : ∀ c ∈ y.mentions, P c := by
  have htypes {xs ys : List TypeId} (h : List.Forall₂ R xs ys) : ∀ c ∈ ys, P c := by
    intro c hc
    obtain ⟨z, _, hz⟩ := mem_right_of_forall₂ h hc
    exact hR z c hz
  cases h with
  | union h => exact htypes h
  | intersection h => exact htypes h
  | @object x y hf hi =>
    intro c hc
    rcases List.mem_append.mp hc with hc | hc
    · obtain ⟨field, hm, rfl⟩ := List.mem_map.mp hc
      obtain ⟨z, _, hz, _⟩ := mem_right_of_forall₂ hf hm
      exact hR _ _ hz
    · obtain ⟨index, hm, rfl⟩ := List.mem_map.mp hc
      rw [Option.mem_toList] at hm
      cases hx : x.index <;> simp only [hx, hm, IndexLike] at hi
      exact hR _ _ hi.1
  | array h => exact fun c hc => List.mem_singleton.mp hc ▸ hR _ _ h
  | tuple h => exact h.forall_types hS
  | @function x y hr hp h =>
    intro c hc
    simp only [Form.mentions, List.mem_append, Option.mem_toList, List.mem_singleton] at hc
    rcases hc with (hc | hc) | rfl
    · cases hx : x.receiver <;> simp only [hx, hc, ReceiverLike] at hr
      exact hR _ _ hr
    · exact hp.forall_types hS c hc
    · exact hR _ _ h
  | constructor hp h =>
    intro c hc
    simp only [Form.mentions, Option.toList_none, List.nil_append, List.mem_append,
      List.mem_singleton] at hc
    rcases hc with hc | rfl
    · exact hp.forall_types hS c hc
    · exact hR _ _ h
  | wrapper h => exact htypes h

end Mentions

section Functions

variable {st : Store} {f : TypeId → TypeId} (hf : ∀ x y, R x y → f x = y)

include hf

theorem map_types {xs ys : List TypeId} (h : List.Forall₂ R xs ys) : xs.map f = ys := by
  induction h with
  | nil => rfl
  | cons hxy _ ih => rw [List.map_cons, hf _ _ hxy, ih]

theorem map_slots {xs ys : List Slot} (h : SlotsLike (SlotSpliced R st) xs ys) :
    (xs.flatMap fun slot => st.splice slot (f slot.type)) = ys := by
  obtain ⟨parts, hp, rfl⟩ := h
  induction hp with
  | nil => rfl
  | cons hxy _ ih =>
    obtain ⟨t, ht, rfl⟩ := hxy
    rw [List.flatMap_cons, hf _ _ ht, ih, List.flatten_cons]

theorem map_fields {xs ys : List Field} (h : List.Forall₂ (FieldLike R) xs ys) :
    (xs.map fun field => { field with type := f field.type }) = ys := by
  induction h with
  | nil => rfl
  | cons hxy _ ih => rw [List.map_cons, hf _ _ hxy.1, ih, ← hxy.2]

theorem map_index {x y : Option IndexSignature} (h : IndexLike R x y) :
    (x.map fun index => { index with type := f index.type }) = y := by
  cases x with
  | none =>
    cases y with
    | none => rfl
    | some => cases h
  | some i =>
    cases y with
    | none => cases h
    | some j => rw [Option.map_some, hf _ _ h.1, ← h.2]

theorem map_receiver {x y : Option TypeId} (h : ReceiverLike R x y) : x.map f = y := by
  cases x with
  | none =>
    cases y with
    | none => rfl
    | some => cases h
  | some t =>
    cases y with
    | none => cases h
    | some u => rw [Option.map_some, hf _ _ h]

/-- If types correspond to one type each, the parts were replaced all at once. -/
theorem eq_replace (h : FormLike R (SlotSpliced R st) x y) : x.replace st f = y := by
  cases h with
  | union h => exact congrArg Form.union (map_types hf h)
  | intersection h => exact congrArg Form.intersection (map_types hf h)
  | object hfields hi => simp only [Form.replace, map_fields hf hfields, map_index hf hi]
  | array h => exact congrArg Form.array (hf _ _ h)
  | tuple h => exact congrArg Form.tuple (map_slots hf h)
  | function hr hp h =>
    simp only [Form.replace, map_receiver hf hr, map_slots hf hp, hf _ _ h]
  | constructor hp h => simp only [Form.replace, map_slots hf hp, hf _ _ h]
  | wrapper h => exact congrArg (Form.wrapper _) (map_types hf h)

end Functions

end FormLike

section Rebuilt

variable {st : Store} {infers params : Bindings} {t a : TypeId} {form : Form}
variable (h : Rebuilt R st infers params t (some form) a)

include h

/-- It is as if the parts had been replaced all at once. -/
theorem Rebuilt.reassembled (hl : form.isLeaf = false) {f : TypeId → TypeId}
    (hf : ∀ x y, R x y → f x = y) : (form.replace st f).build.run st = (a, st) := by
  cases h with
  | built h hb =>
    rw [h.eq_replace hf]
    exact hb
  | _ => cases hl

/-- A container is rebuilt as one. -/
theorem Rebuilt.container (hi : st.Indexed) (hf : form.isContainer = true) :
    ∃ y, FormLike R (SlotLike R st) form y ∧ Made y a st ∧ y.isContainer = true := by
  cases h with
  | @built _ y _ h hb =>
    have hmade := Form.made_build (h.isExact_container hf) hi
    rw [hb] at hmade
    exact ⟨y, h.mono (fun _ _ h => h) fun _ _ h => h.like, hmade, h.isContainer.trans hf⟩
  | _ => cases hf

end Rebuilt

end Parts

section Step

variable (replace : TypeId → SubstM TypeId)

def replaceForm : Form → SubstM Form
  | .union members => return .union (← members.mapM replace)
  | .intersection members => return .intersection (← members.mapM replace)
  | .object shape => do
    let fields ← shape.fields.mapM (replaceField replace)
    let index ← replaceIndex replace shape.index
    return .object { fields, index }
  | .array element => return .array (← replace element)
  | .tuple slots => return .tuple (← replaceSlots replace slots)
  | .function signature => return .function (← replaceSignature replace signature)
  | .constructor signature => do
    let signature ← replaceSignature replace signature
    return .constructor { params := signature.params, result := signature.result }
  | .wrapper kind args => return .wrapper kind (← args.mapM replace)
  | form => return form

def rebuildForm (t : TypeId) : Option Form → SubstM TypeId
  | none | some (.intrinsic _) | some (.literal _) => return t
  | some (.infer name) => return ((← get).infers.get? name).getD .never
  | some (.param name) => return ((← get).params.get? name).getD t
  | some form => do (← replaceForm replace form).build

/-- A substitution looks at the form of a type. -/
theorem rebuild_eq (t : TypeId) :
    rebuild replace t = getThe Store >>= fun st => rebuildForm replace t (st.form? t) := by
  unfold rebuild
  congr 1
  funext st
  unfold Store.form?
  cases st.lookup t with
  | none => rfl
  | some node =>
    cases node <;> simp only [Option.map_some, Store.form, rebuildForm, replaceForm, bind_assoc,
      pure_bind] <;> rfl

theorem replaceSlot_eq (slot : Slot) : replaceSlot replace slot =
    replace slot.type >>= fun t => getThe Store >>= fun st => pure (st.splice slot t) := by
  unfold replaceSlot
  congr 1
  funext t
  congr 1
  funext st
  unfold Store.splice Store.form?
  cases hr : slot.rest <;> cases hl : st.lookup t with
  | none => rfl
  | some node => cases node <;> rfl

end Step

/-- Whatever way the levels below evolve the state from here on, they replace the parts by types
that are related to them, and slots by what the types of the slots give way to. -/
structure Replaces (W : Store → Store → Prop) (F : State → State → Prop)
    (R : TypeId → TypeId → State → Prop) (S : Slot → List Slot → State → Prop)
    (replace : TypeId → SubstM TypeId) (parts : List TypeId) (s : State) : Prop where
  stable (x y : TypeId) : StableFrom F s (R x y)
  stable_slot (x : Slot) (ys : List Slot) : StableFrom F s (S x ys)
  replaces {s' : State} {c : TypeId} : F s s' → c ∈ parts → Runs W F (replace c) s' (R c)
  splices {s' : State} {slot : Slot} {t : TypeId} : F s s' → R slot.type t s' →
    S slot (s'.2.splice slot t) s'
  reads {s' : State} {x t : TypeId} {st' : Store} : F s s' → R x t s' → W s'.2 st' →
    st'.form? t = s'.2.form? t

namespace Replaces

variable {W : Store → Store → Prop} {F : State → State → Prop} [Foregoing W F]
variable {R : TypeId → TypeId → State → Prop} {S : Slot → List Slot → State → Prop}
variable {replace : TypeId → SubstM TypeId} {parts : List TypeId} {s : State}

theorem later (h : Replaces W F R S replace parts s) {s' : State} (hs : F s s') :
    Replaces W F R S replace parts s' where
  stable x y := (h.stable x y).later hs
  stable_slot x ys := (h.stable_slot x ys).later hs
  replaces h' := h.replaces (Evolution.trans hs h')
  splices h' := h.splices (Evolution.trans hs h')
  reads h' := h.reads (Evolution.trans hs h')

variable (h : Replaces W F R S replace parts s)

include h

theorem types {xs : List TypeId} (hx : ∀ x ∈ xs, x ∈ parts) :
    Runs W F (xs.mapM replace) s fun ys s' => List.Forall₂ (R · · s') xs ys :=
  Runs.mapM h.stable fun x hm _ hs => h.replaces hs (hx x hm)

theorem field {x : Field} (hx : x.type ∈ parts) :
    Runs W F (replaceField replace x) s fun y s' => FieldLike (R · · s') x y :=
  (h.replaces (Evolution.refl s) hx).bind fun _ _ _ ht => Runs.pure ⟨ht, rfl⟩

theorem fields {xs : List Field} (hx : ∀ x ∈ xs, x.type ∈ parts) :
    Runs W F (xs.mapM (replaceField replace)) s fun ys s' =>
      List.Forall₂ (FieldLike (R · · s')) xs ys :=
  Runs.mapM (fun _ _ _ _ h₁ h₂ hf => hf.mono fun _ _ => h.stable _ _ h₁ h₂)
    fun x hm _ hs => (h.later hs).field (hx x hm)

theorem index {x : Option IndexSignature} (hx : ∀ i ∈ x, i.type ∈ parts) :
    Runs W F (replaceIndex replace x) s fun y s' => IndexLike (R · · s') x y := by
  cases x with
  | none => exact Runs.pure trivial
  | some i =>
    exact (h.replaces (Evolution.refl s) (hx i rfl)).bind fun _ _ _ ht => Runs.pure ⟨ht, rfl⟩

theorem receiver {x : Option TypeId} (hx : ∀ t ∈ x, t ∈ parts) :
    Runs W F (replaceReceiver replace x) s fun y s' => ReceiverLike (R · · s') x y := by
  cases x with
  | none => exact Runs.pure trivial
  | some t => exact (h.replaces (Evolution.refl s) (hx t rfl)).bind fun _ _ _ ht => Runs.pure ht

theorem slot {x : Slot} (hx : x.type ∈ parts) :
    Runs W F (replaceSlot replace x) s fun ys s' => S x ys s' := by
  rw [replaceSlot_eq]
  apply (h.replaces (Evolution.refl s) hx).bind
  intro t s₁ h₁ ht
  apply runs_getStore
  · exact Runs.pure (h.splices h₁ ht)
  · intro st' hw
    rw [Store.splice_congr x (h.reads h₁ ht hw)]

theorem slots {xs : List Slot} (hx : ∀ x ∈ xs, x.type ∈ parts) :
    Runs W F (replaceSlots replace xs) s fun ys s' => SlotsLike (S · · s') xs ys := by
  apply (Runs.mapM h.stable_slot fun x hm _ hs => (h.later hs).slot (hx x hm)).bind
  exact fun ps _ _ hp => Runs.pure ⟨ps, hp, rfl⟩

theorem signature {x : Signature} (hx : ∀ t ∈ (Form.function x).mentions, t ∈ parts) :
    Runs W F (replaceSignature replace x) s fun y s' =>
      ReceiverLike (R · · s') x.receiver y.receiver ∧ SlotsLike (S · · s') x.params y.params ∧
        R x.result y.result s' := by
  simp only [Form.mentions, List.mem_append, Option.mem_toList, List.mem_singleton] at hx
  apply (h.receiver fun t ht => hx t (.inl (.inl ht))).bind
  intro r s₁ h₁ hr
  apply ((h.later h₁).slots fun slot hm => hx _ (.inl (.inr (List.mem_map_of_mem hm)))).bind
  intro ps s₂ h₂ hp
  have h₁₂ := Evolution.trans h₁ h₂
  apply (h.replaces h₁₂ (hx _ (.inr rfl))).bind
  intro t s₃ h₃ ht
  apply Runs.pure
  refine ⟨?_, hp.mono fun _ _ => h.stable_slot _ _ h₁₂ h₃, ht⟩
  exact hr.mono fun _ _ hxy => h.stable _ _ h₁₂ h₃ (h.stable _ _ h₁ h₂ hxy)

theorem object {x : Shape} (hx : ∀ t ∈ x.types, t ∈ parts) :
    Runs W F (replaceForm replace (.object x)) s fun y s' =>
      FormLike (R · · s') (S · · s') (.object x) y := by
  have hfields : ∀ f ∈ x.fields, f.type ∈ parts := fun f hm =>
    hx _ (List.mem_append_left _ (List.mem_map_of_mem hm))
  have hindex : ∀ i ∈ x.index, i.type ∈ parts := fun i hm =>
    hx _ (List.mem_append_right _ (List.mem_map_of_mem (Option.mem_toList.mpr hm)))
  apply (h.fields hfields).bind
  intro fields s₁ h₁ hf
  apply ((h.later h₁).index hindex).bind
  intro index s₂ h₂ hi
  apply Runs.pure
  exact .object (hf.imp fun _ _ hxy => hxy.mono fun _ _ => h.stable _ _ h₁ h₂) hi

/-- The parts of a form are replaced one after the other. -/
theorem form {x : Form} (hx : ∀ c ∈ x.mentions, c ∈ parts) (hl : x.isLeaf = false) :
    Runs W F (replaceForm replace x) s fun y s' => FormLike (R · · s') (S · · s') x y := by
  cases x with
  | intrinsic | literal | infer | param => cases hl
  | union ms => exact (h.types hx).bind fun _ _ _ hys => Runs.pure (.union hys)
  | intersection ms => exact (h.types hx).bind fun _ _ _ hys => Runs.pure (.intersection hys)
  | object shape => exact h.object hx
  | array element =>
    apply (h.replaces (Evolution.refl s) (hx element (by simp [Form.mentions]))).bind
    exact fun _ _ _ hy => Runs.pure (.array hy)
  | tuple slots =>
    apply (h.slots fun slot hm => hx _ (Form.slot_mentioned (f := .tuple slots) hm)).bind
    exact fun _ _ _ hys => Runs.pure (.tuple hys)
  | function sig =>
    exact (h.signature hx).bind fun _ _ _ hy => Runs.pure (.function hy.1 hy.2.1 hy.2.2)
  | constructor sig =>
    exact (h.signature hx).bind fun _ _ _ hy => Runs.pure (.constructor hy.2.1 hy.2.2)
  | wrapper kind args => exact (h.types hx).bind fun _ _ _ hys => Runs.pure (.wrapper hys)

end Replaces

section Rebuild

variable {F : State → State → Prop} [Evolution F] {R : TypeId → TypeId → State → Prop}
variable (later : ∀ {s s'}, F s s' → Later s.2 s'.2)
variable (lift : ∀ {s : State} {st' : Store}, Later s.2 st' → F s (s.1, st'))
variable (stable : ∀ x y, Stable F (R x y))
variable (valid : ∀ {x y s}, R x y s → y < s.2.size)
variable {replace : TypeId → SubstM TypeId} {t : TypeId} {s : State} (hw : s.2.WellFormed)
variable (hrep : ∀ s', F s s' → ∀ c ∈ s.2.mentions t, Leads F (replace c) s' (R c))

omit [Evolution F] in
include lift hw in
/-- What is put together is found again. -/
theorem leads_build {y : Form} (hy : ∀ c ∈ y.mentions, c < s.2.size) :
    Leads F (liftM y.build : SubstM TypeId) s fun a s' =>
      Later s.2 s'.2 ∧ y.build.run s'.2 = (a, s'.2) := by
  have hbuild :=
    Store.kind_valid.leads_build (f := y) hw (fun _ _ _ _ _ hf => Store.lt_size_of_form hf) hy
  refine leads_lift (lift hbuild.1) ⟨hbuild.1, ?_⟩
  exact y.build_again (.refl _) fun c hc => hw.steady hbuild.1.grown (hy c hc)

include later lift stable valid hw hrep

/-- The parts of a type are replaced one after the other and put together again. -/
theorem leads_rebuild : Leads F (rebuild replace t) s fun a s' =>
    Rebuilt (R · · s') s'.2 s.1.infers s.1.params t (s.2.form? t) a := by
  have : Foregoing (fun _ _ => False) F := ⟨fun _ h => h.elim⟩
  have hsame {s₁ s₂ : State} (h₁ : F s s₁) (h₂ : F s₁ s₂) {x y : TypeId} (hxy : R x y s₁) :
      R x y s₂ ∧ s₂.2.form? y = s₁.2.form? y :=
    ⟨stable x y h₂ hxy, ((later h₁).sound hw).form_extends (later h₂).grown (valid hxy)⟩
  have hparts : Replaces (fun _ _ => False) F R
      (fun x ys s => SlotSpliced (R · · s) s.2 x ys) replace
      (s.2.mentions t) s := {
    stable := fun x y => (stable x y).from s
    stable_slot := fun x ys s₁ s₂ h₁ h₂ h => h.mono fun _ _ => hsame h₁ h₂
    replaces := fun hs hc => .of_leads (hrep _ hs _ hc) fun _ _ h => h
    splices := fun _ ht => ⟨_, ht, rfl⟩
    reads := fun _ _ h => h.elim }
  rw [rebuild_eq]
  apply leads_getStore
  cases hf : s.2.form? t with
  | none => exact Leads.pure .undefined
  | some x =>
    have hform (hl : x.isLeaf = false) :
        Leads F (replaceForm replace x >>= fun y => liftM y.build) s
        fun a s' => Rebuilt (R · · s') s'.2 s.1.infers s.1.params t (some x) a := by
      apply (hparts.form (fun c hc => Store.mentions_of_form hf ▸ hc) hl).leads.bind
      intro y s₁ h₁ hy
      have hw₁ := (later h₁).sound hw
      have hvalid : ∀ c ∈ y.mentions, c < s₁.2.size := by
        apply hy.forall_mentions (P := (· < s₁.2.size)) fun _ _ h => valid h
        rintro slot _ ⟨u, hu, rfl⟩ part hm
        rcases Store.mem_splice hm with he | hm
        · exact he ▸ valid hu
        · exact (hw₁.sound u).inside hm
      apply (leads_build lift hw₁ hvalid).mono
      intro a s₂ h₂ hb
      exact .built (hy.mono (fun _ _ => stable _ _ h₂) fun _ _ h => h.mono fun _ _ =>
        hsame h₁ h₂) hb.2
    cases x with
    | intrinsic kind => exact Leads.pure .intrinsic
    | literal value => exact Leads.pure .literal
    | infer name => exact leads_get (Leads.pure .infer)
    | param name => exact leads_get (Leads.pure .param)
    | _ => exact hform rfl

end Rebuild

end TypeCalculus.Substitution
