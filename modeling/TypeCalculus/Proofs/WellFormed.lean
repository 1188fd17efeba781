import TypeCalculus.Proofs.Extension
import TypeCalculus.Store.Build

namespace TypeCalculus.Store

def Placed (st : Store) : Node → Prop
  | .union id | .intersection id | .wrapper _ id => (st.lists.get? id).isSome
  | .object id => (st.shapes.get? id).isSome
  | .tuple id => (st.tuples.get? id).isSome
  | .function id | .constructor id => (st.signatures.get? id).isSome
  | _ => True

theorem form_isContainer (st : Store) (node : Node) :
    (st.form node).isContainer = node.isContainer := by
  cases node <;> rfl

structure Sound (st : Store) (t : TypeId) : Prop where
  placed {node : Node} : st.lookup t = some node → st.Placed node
  inside {c : TypeId} : c ∈ st.mentions t → c < st.size
  below {c : TypeId} : st.isReserved t = false → c ∈ st.mentions t → c < t
  container {node : Node} : st.isReserved t = true → st.lookup t = some node →
    node.isContainer = true
  union {ms : List TypeId} : st.form? t = some (.union ms) →
    2 ≤ ms.length ∧ ∀ m ∈ ms, ∀ ls, st.form? m ≠ some (.union ls)

/-- Nodes point to entries that the tables have and to types that the store has, an interned type
only mentions older ones, a placeholder stands for a container, and a union has at least two members
none of which is a union. -/
structure WellFormed (st : Store) : Prop where
  founded : st.Founded
  indexed : st.Indexed
  sound (t : TypeId) : st.Sound t
  conditional {c : Conditional} : c ∈ st.conditionals.items →
    c.pattern < st.size ∧ c.yes < st.size ∧ c.no < st.size

/-- What stays of well-formedness if any node may be interned and any placeholder be given any body,
as long as they are made of types that the store has. -/
structure Anchored (st : Store) : Prop where
  founded : st.Founded
  indexed : st.Indexed
  placed {t : TypeId} {node : Node} : st.lookup t = some node → st.Placed node
  inside {t c : TypeId} : c ∈ st.mentions t → c < st.size
  below {t c : TypeId} : st.isReserved t = false → c ∈ st.mentions t → c < t
  conditional {c : Conditional} : c ∈ st.conditionals.items →
    c.pattern < st.size ∧ c.yes < st.size ∧ c.no < st.size

theorem WellFormed.anchored {st : Store} (hw : st.WellFormed) : st.Anchored where
  founded := hw.founded
  indexed := hw.indexed
  placed hn := (hw.sound _).placed hn
  inside hc := (hw.sound _).inside hc
  below hr hc := (hw.sound _).below hr hc
  conditional := hw.conditional

theorem Anchored.conditional_lt_size {st : Store} (ha : st.Anchored) (id : ConditionalId) :
    (st.conditional id).pattern < st.size ∧ (st.conditional id).yes < st.size ∧
      (st.conditional id).no < st.size := by
  have hnever : TypeId.never < st.size := lt_size_of_lookup (by
    rw [show TypeId.never = Intrinsic.never.id from rfl, ha.founded.lookup]
    rfl)
  unfold Store.conditional
  cases hc : st.conditionals.get? id with
  | none => exact ⟨hnever, hnever, hnever⟩
  | some c => exact ha.conditional (List.mem_of_getElem? hc)

theorem WellFormed.conditional_lt_size {st : Store} (hw : st.WellFormed) (id : ConditionalId) :
    (st.conditional id).pattern < st.size ∧ (st.conditional id).yes < st.size ∧
      (st.conditional id).no < st.size :=
  hw.anchored.conditional_lt_size id

theorem WellFormed.form_reserved {st : Store} (hw : st.WellFormed) {t : TypeId} {f : Form}
    (hr : st.isReserved t = true) (hf : st.form? t = some f) : f.isContainer = true := by
  obtain ⟨node, hn, rfl⟩ := lookup_of_form hf
  rw [form_isContainer]
  exact (hw.sound t).container hr hn

section Kept

variable {st st' : Store}

theorem Widens.placed (h : st.Widens st') {node : Node} (hp : st.Placed node) :
    st'.Placed node := by
  cases node <;> simp only [Placed, Option.isSome_iff_exists] at hp ⊢
  case union | intersection | wrapper =>
    obtain ⟨v, hv⟩ := hp
    exact ⟨v, h.lists.get? hv⟩
  case object =>
    obtain ⟨v, hv⟩ := hp
    exact ⟨v, h.shapes.get? hv⟩
  case tuple =>
    obtain ⟨v, hv⟩ := hp
    exact ⟨v, h.tuples.get? hv⟩
  case function | constructor =>
    obtain ⟨v, hv⟩ := hp
    exact ⟨v, h.signatures.get? hv⟩

theorem Widens.form (h : st.Widens st') {node : Node} (hp : st.Placed node) :
    st'.form node = st.form node := by
  cases node <;> simp only [Placed, Option.isSome_iff_exists] at hp <;> try rfl
  case union | intersection | wrapper =>
    obtain ⟨v, hv⟩ := hp
    simp [Store.form, list, hv, h.lists.get? hv]
  case object =>
    obtain ⟨v, hv⟩ := hp
    simp [Store.form, shape, hv, h.shapes.get? hv]
  case tuple =>
    obtain ⟨v, hv⟩ := hp
    simp [Store.form, slots, hv, h.tuples.get? hv]
  case function | constructor =>
    obtain ⟨v, hv⟩ := hp
    simp [Store.form, signature, hv, h.signatures.get? hv]

/-- What a type is made of stays as it is, if the tables have it. -/
theorem Grows.form (h : st.Grows st') {t : TypeId} {f : Form}
    (hp : ∀ node, st.lookup t = some node → st.Placed node) (hf : st.form? t = some f) :
    st'.form? t = some f := by
  obtain ⟨node, hn, rfl⟩ := lookup_of_form hf
  rw [form_of_lookup (h.lookup hn), h.widens.form (hp node hn)]

theorem Extends.form (h : st.Extends st') {t : TypeId}
    (hp : ∀ node, st.lookup t = some node → st.Placed node) (ht : t < st.size) :
    st'.form? t = st.form? t := by
  cases hf : st.form? t with
  | none => rw [form?_eq_none, h.lookup ht, ← form?_eq_none, hf]
  | some f => exact h.grows.form hp hf

theorem Anchored.form_grows (ha : st.Anchored) (h : st.Grows st') {t : TypeId} {f : Form}
    (hf : st.form? t = some f) : st'.form? t = some f :=
  h.form (fun _ => ha.placed) hf

theorem WellFormed.form_grows (hw : st.WellFormed) (h : st.Grows st') {t : TypeId} {f : Form}
    (hf : st.form? t = some f) : st'.form? t = some f :=
  hw.anchored.form_grows h hf

theorem Anchored.form_extends (ha : st.Anchored) (h : st.Extends st') {t : TypeId}
    (ht : t < st.size) : st'.form? t = st.form? t :=
  h.form (fun _ => ha.placed) ht

theorem WellFormed.form_extends (hw : st.WellFormed) (h : st.Extends st') {t : TypeId}
    (ht : t < st.size) : st'.form? t = st.form? t :=
  hw.anchored.form_extends h ht

theorem Anchored.mentions_extends (ha : st.Anchored) (h : st.Extends st') {t : TypeId}
    (ht : t < st.size) : st'.mentions t = st.mentions t := by
  rw [mentions_eq, mentions_eq, ha.form_extends h ht]

theorem WellFormed.mentions_extends (hw : st.WellFormed) (h : st.Extends st') {t : TypeId}
    (ht : t < st.size) : st'.mentions t = st.mentions t :=
  hw.anchored.mentions_extends h ht

theorem lt_size_of_form {t : TypeId} {f : Form} (h : st.form? t = some f) : t < st.size := by
  obtain ⟨node, hn, _⟩ := lookup_of_form h
  exact lt_size_of_lookup (by simp [hn])

theorem lt_size_of_mentions {t c : TypeId} (h : c ∈ st.mentions t) : t < st.size := by
  unfold mentions at h
  split at h
  · rename_i hn
    exact lt_size_of_lookup (by simp [hn])
  · simp at h

/-- From a type of the store only types of the store can be reached. -/
theorem WellFormed.lt_size_of_reaches (hw : st.WellFormed) {t u : TypeId} (ht : t < st.size)
    (h : st.Reaches t u) : u < st.size :=
  h.inside (X := (· < st.size)) (fun t _ _ hc => (hw.sound t).inside hc) ht

/-- Extensions add nothing to what can be reached from it. -/
theorem WellFormed.reaches_extends (hw : st.WellFormed) (h : st.Extends st') {t u : TypeId}
    (ht : t < st.size) : st'.Reaches t u ↔ st.Reaches t u := by
  constructor
  · intro hr
    have hin : st.Reaches t u ∧ u < st.size := by
      refine hr.inside (X := fun u => st.Reaches t u ∧ u < st.size)
        (fun x hx c hc => ?_) ⟨.refl, ht⟩
      rw [hw.mentions_extends h hx.2] at hc
      exact ⟨hx.1.tail hc, (hw.sound x).inside hc⟩
    exact hin.1
  · intro hr
    refine hr.inside (X := st'.Reaches t) (fun x hx c hc => hx.tail ?_) .refl
    rw [hw.mentions_extends h (lt_size_of_mentions hc)]
    exact hc

/-- Old types stay sound in an extension. -/
theorem WellFormed.sound_extends (hw : st.WellFormed) (h : st.Extends st') {t : TypeId}
    (ht : t < st.size) : st'.Sound t where
  placed hn := h.widens.placed ((hw.sound t).placed (h.lookup ht ▸ hn))
  inside hc := by
    rw [hw.mentions_extends h ht] at hc
    exact Nat.lt_of_lt_of_le ((hw.sound t).inside hc) h.size
  below hr hc := by
    rw [h.isReserved ht] at hr
    rw [hw.mentions_extends h ht] at hc
    exact (hw.sound t).below hr hc
  container hr hn := (hw.sound t).container (h.isReserved ht ▸ hr) (h.lookup ht ▸ hn)
  union {ms} hf := by
    rw [hw.form_extends h ht] at hf
    obtain ⟨hlen, hms⟩ := (hw.sound t).union hf
    refine ⟨hlen, fun m hm ls => ?_⟩
    have hlt : m < st.size := (hw.sound t).inside (mentions_of_form hf ▸ hm)
    rw [hw.form_extends h hlt]
    exact hms m hm ls

theorem sound_of_lookup {t : TypeId} (hn : st.lookup t = none) : st.Sound t := by
  have hf : st.form? t = none := form?_eq_none.mpr hn
  have hm : st.mentions t = [] := by rw [mentions_eq, hf]; rfl
  exact ⟨by simp [hn], by simp [hm], by simp [hm], by simp [hn], by simp [hf]⟩

/-- To extend a well-formed store, see to the new cells and the new conditionals. -/
theorem WellFormed.extend (hw : st.WellFormed) (h : st.Extends st')
    (hnew : ∀ t, st.size ≤ t → t < st'.size → st'.Sound t)
    (hcond : ∀ c ∈ st'.conditionals.items, c ∈ st.conditionals.items ∨
      c.pattern < st'.size ∧ c.yes < st'.size ∧ c.no < st'.size) : st'.WellFormed where
  founded := h.founded hw.founded
  indexed := h.indexed.mpr hw.indexed
  sound t := by
    rcases Nat.lt_or_ge t st.size with ht | ht
    · exact hw.sound_extends h ht
    · rcases Nat.lt_or_ge t st'.size with ht' | ht'
      · exact hnew t ht ht'
      · exact sound_of_lookup (by simp [lookup, List.getElem?_eq_none ht'])
  conditional {c} hc := by
    rcases hcond c hc with hc | hc
    · obtain ⟨hp, hy, hn⟩ := hw.conditional hc
      exact ⟨Nat.lt_of_lt_of_le hp h.size, Nat.lt_of_lt_of_le hy h.size,
        Nat.lt_of_lt_of_le hn h.size⟩
    · exact hc

end Kept

/-- The store has grown, and is well formed if it was. -/
structure Later (st st' : Store) : Prop where
  grown : st.Extends st'
  sound : st.WellFormed → st'.WellFormed

instance : Evolution Later where
  refl st := ⟨.refl st, id⟩
  trans h h' := ⟨h.grown.trans h'.grown, fun hw => h'.sound (h.sound hw)⟩

/-- The type was interned, and is made of these parts. -/
structure Made (f : Form) (t : TypeId) (st : Store) : Prop where
  form : st.form? t = some f
  interned : st.isReserved t = false

theorem Made.lt_size {st : Store} {f : Form} {t : TypeId} (h : Made f t st) : t < st.size :=
  lt_size_of_form h.form

section Primitives

variable {st : Store} (hw : st.WellFormed)

theorem made_at {node : Node} {t : TypeId} (h : st.cells[t]? = some (.interned node)) :
    Made (st.form node) t st := by
  refine ⟨form_of_lookup ?_, ?_⟩
  · simp [lookup, h, Cell.node?]
  · simp [isReserved, h]

include hw

/-- A new node extends a well-formed store. -/
theorem leads_intern {node : Node} {f : Form} (hn : ∀ kind, node ≠ .intrinsic kind)
    (hp : st.Placed node) (hf : st.form node = f) (hc : ∀ c ∈ f.mentions, c < st.size)
    (hu : ∀ ms, f = .union ms → 2 ≤ ms.length ∧ ∀ m ∈ ms, ∀ ls, st.form? m ≠ some (.union ls)) :
    Leads Later (intern node) st (Made f) := by
  have hext := extends_intern node st
  suffices h : Later st ((intern node).run st).2 ∧
      Made f ((intern node).run st).1 ((intern node).run st).2 from leads_run h.1 h.2
  rw [run_intern hn] at hext ⊢
  cases hkey : st.keys.get? node with
  | some t => exact ⟨Evolution.refl st, hf ▸ made_at ((hw.indexed.keys node t).mp hkey)⟩
  | none =>
    simp only [hkey] at hext ⊢
    generalize hst' : st.add node = st' at hext ⊢
    have hcell : st'.cells[st.size]? = some (.interned node) := by simp [← hst', add, size]
    have hsize : st'.size = st.size + 1 := by simp [← hst', add, size]
    have hmade : Made f st.size st' := hf ▸ hext.widens.form hp ▸ made_at hcell
    have hment := mentions_of_form hmade.form
    refine ⟨⟨hext, fun _ => hw.extend hext (fun t h₁ h₂ => ?_) fun c hc => .inl ?_⟩, hmade⟩
    · obtain rfl : t = st.size := by omega
      refine ⟨fun hl => ?_, fun hm => ?_, fun _ hm => ?_, fun hr => ?_, fun hms => ?_⟩
      · simp only [lookup, hcell, Option.bind_some, Cell.node?, Option.some.injEq] at hl
        exact hl ▸ hext.widens.placed hp
      · rw [hment] at hm
        exact Nat.lt_of_lt_of_le (hc _ hm) hext.size
      · rw [hment] at hm
        exact hc _ hm
      · simp [hmade.interned] at hr
      · cases hmade.form.symm.trans hms
        obtain ⟨hlen, hms⟩ := hu _ rfl
        exact ⟨hlen, fun m hm ls => hw.form_extends hext (hc m hm) ▸ hms m hm ls⟩
    · rw [← hst'] at hc
      exact hc

/-- Tables may grow without any harm. -/
theorem WellFormed.later_of_tables {st' : Store} (h : st.Extends st') (hc : st'.cells = st.cells)
    (hcond : st'.conditionals = st.conditionals) : Later st st' := by
  refine ⟨h, fun _ => hw.extend h (fun t h₁ h₂ => ?_) fun c hc => .inl (hcond ▸ hc)⟩
  have : st'.size = st.size := by rw [size, hc, size]
  omega

theorem leads_internList (members : List TypeId) :
    Leads Later (internList members) st fun id st' => st'.lists.get? id = some members :=
  ⟨hw.later_of_tables (extends_internList members st) rfl rfl, hw.indexed.lists.get?_intern members⟩

theorem leads_internSlots (slots : List Slot) :
    Leads Later (internSlots slots) st fun id st' => st'.tuples.get? id = some slots :=
  ⟨hw.later_of_tables (extends_internSlots slots st) rfl rfl, hw.indexed.tuples.get?_intern slots⟩

theorem leads_internShape (shape : Shape) :
    Leads Later (internShape shape) st fun id st' => st'.shapes.get? id = some shape :=
  ⟨hw.later_of_tables (extends_internShape shape st) rfl rfl, hw.indexed.shapes.get?_intern shape⟩

theorem leads_internSignature (signature : Signature) :
    Leads Later (internSignature signature) st fun id st' =>
      st'.signatures.get? id = some signature :=
  ⟨hw.later_of_tables (extends_internSignature signature st) rfl rfl,
    hw.indexed.signatures.get?_intern signature⟩

theorem leads_internMapping (mapping : Mapping) :
    Leads Later (internMapping mapping) st fun id st' => st'.mappings.get? id = some mapping :=
  ⟨hw.later_of_tables (extends_internMapping mapping st) rfl rfl,
    hw.indexed.mappings.get?_intern mapping⟩

/-- The parts of a conditional have to be there. -/
theorem leads_internConditional {c : Conditional}
    (hc : c.pattern < st.size ∧ c.yes < st.size ∧ c.no < st.size) :
    Leads Later (internConditional c) st fun id st' => st'.conditionals.get? id = some c := by
  have hext := extends_internConditional c st
  have hsize : ((internConditional c).run st).2.size = st.size := rfl
  refine leads_run ⟨hext, fun _ => hw.extend hext (fun t h₁ h₂ => ?_) fun d hd => ?_⟩
    (hw.indexed.conditionals.get?_intern c)
  · omega
  · have hd : d ∈ (st.conditionals.intern c).2.items := hd
    rw [hsize]
    rcases Table.mem_intern hd with hd | rfl
    · exact .inl hd
    · exact .inr hc

/-- Takes a fresh place. -/
theorem leads_reserve :
    Leads Later reserve st fun t st' => t = st.size ∧ st'.cells[t]? = some (.reserved none) := by
  have hext := extends_reserve st
  have hcells : (reserve.run st).2.cells = st.cells ++ [.reserved none] := rfl
  have hcell : (reserve.run st).2.cells[st.size]? = some (.reserved none) := by simp [hcells, size]
  have hsize : (reserve.run st).2.size = st.size + 1 := by simp [size, hcells]
  refine leads_run ⟨hext, fun _ => hw.extend hext (fun t h₁ h₂ => ?_) fun d hd => .inl hd⟩
    ⟨rfl, hcell⟩
  obtain rfl : t = st.size := by omega
  exact sound_of_lookup (by simp [lookup, hcell, Cell.node?])

end Primitives

section Builders

variable {st : Store} (hw : st.WellFormed)

include hw

theorem leads_mkLiteral (value : Literal) :
    Leads Later (mkLiteral value) st (Made (.literal value)) :=
  leads_intern hw nofun trivial rfl nofun nofun

theorem leads_mkInfer (name : String) : Leads Later (mkInfer name) st (Made (.infer name)) :=
  leads_intern hw nofun trivial rfl nofun nofun

theorem leads_mkParam (name : String) : Leads Later (mkParam name) st (Made (.param name)) :=
  leads_intern hw nofun trivial rfl nofun nofun

theorem leads_mkArray {element : TypeId} (h : element < st.size) :
    Leads Later (mkArray element) st (Made (.array element)) :=
  leads_intern hw nofun trivial rfl (fun _ hc => List.mem_singleton.mp hc ▸ h) nofun

theorem leads_mkTuple {slots : List Slot} (h : ∀ c ∈ slots.map Slot.type, c < st.size) :
    Leads Later (mkTuple slots) st (Made (.tuple slots)) := by
  refine (leads_internSlots hw slots).bind fun id st' hs hid => ?_
  exact leads_intern (hs.sound hw) nofun (by simp [Placed, hid]) (by simp [form, Store.slots, hid])
    (fun c hc => Nat.lt_of_lt_of_le (h c hc) hs.grown.size) nofun

theorem leads_mkObject {shape : Shape} (h : ∀ c ∈ shape.types, c < st.size) :
    Leads Later (mkObject shape) st (Made (.object shape)) := by
  refine (leads_internShape hw shape).bind fun id st' hs hid => ?_
  exact leads_intern (hs.sound hw) nofun (by simp [Placed, hid]) (by simp [form, Store.shape, hid])
    (fun c hc => Nat.lt_of_lt_of_le (h c hc) hs.grown.size) nofun

theorem leads_mkFunction {signature : Signature}
    (h : ∀ c ∈ (Form.function signature).mentions, c < st.size) :
    Leads Later (mkFunction signature) st (Made (.function signature)) := by
  refine (leads_internSignature hw signature).bind fun id st' hs hid => ?_
  exact leads_intern (hs.sound hw) nofun (by simp [Placed, hid])
    (by simp [form, Store.signature, hid])
    (fun c hc => Nat.lt_of_lt_of_le (h c hc) hs.grown.size) nofun

theorem leads_mkConstructor {params : List Slot} {result : TypeId}
    (h : ∀ c ∈ (Form.constructor { params, result }).mentions, c < st.size) :
    Leads Later (mkConstructor params result) st (Made (.constructor { params, result })) := by
  refine (leads_internSignature hw { params, result }).bind fun id st' hs hid => ?_
  exact leads_intern (hs.sound hw) nofun (by simp [Placed, hid])
    (by simp [form, Store.signature, hid])
    (fun c hc => Nat.lt_of_lt_of_le (h c hc) hs.grown.size) nofun

theorem leads_mkWrapper {kind : Wrapper} {args : List TypeId} (h : ∀ c ∈ args, c < st.size) :
    Leads Later (mkWrapper kind args) st (Made (.wrapper kind args)) := by
  refine (leads_internList hw args).bind fun id st' hs hid => ?_
  exact leads_intern (hs.sound hw) nofun (by simp [Placed, hid]) (by simp [form, Store.list, hid])
    (fun c hc => Nat.lt_of_lt_of_le (h c hc) hs.grown.size) nofun

end Builders

def filled (st : Store) (t : TypeId) (body : Node) : Store :=
  { st with cells := st.cells.set t (.reserved (some body)) }

section Filled

variable {st : Store} {t : TypeId} {body : Node} (hc : st.cells[t]? = some (.reserved none))

theorem run_define_empty (hc : st.cells[t]? = some (.reserved none)) :
    (define t body).run st = (.ok (), st.filled t body) := by
  rcases run_define t body st with ⟨_, h⟩ | ⟨h, _⟩
  · exact h
  · exact absurd hc h

theorem filled_size : (st.filled t body).size = st.size := by simp [filled, size]

theorem lt_size_filled {c : Cell} (h : st.cells[t]? = some c) : t < (st.filled t body).size := by
  rw [filled_size]
  exact (List.getElem?_eq_some_iff.mp h).1

theorem filled_lt {u : TypeId} (h : u < st.size) : u < (st.filled t body).size := by
  rw [filled_size]
  exact h

theorem filled_cell_ne {u : TypeId} (h : u ≠ t) : (st.filled t body).cells[u]? = st.cells[u]? := by
  simp [filled, List.getElem?_set_ne h.symm]

theorem filled_form_ne {u : TypeId} (h : u ≠ t) : (st.filled t body).form? u = st.form? u := by
  simp only [form?, lookup, filled_cell_ne h]
  rfl

theorem filled_mentions_ne {u : TypeId} (h : u ≠ t) :
    (st.filled t body).mentions u = st.mentions u := by
  rw [mentions_eq, mentions_eq, filled_form_ne h]

include hc

theorem filled_cell : (st.filled t body).cells[t]? = some (.reserved (some body)) := by
  obtain ⟨hlt, _⟩ := List.getElem?_eq_some_iff.mp hc
  simp [filled, List.getElem?_set_self hlt]

/-- Placeholders have no keys, whether they have a body or not. -/
theorem indexed_filled : (st.filled t body).Indexed ↔ st.Indexed := by
  apply indexed_congr
  intro node u
  show (_ ↔ (st.filled t body).cells[u]? = _) ↔ _
  by_cases hu : u = t
  · subst hu
    simp [filled_cell hc, hc]
  · rw [filled_cell_ne hu]

/-- A placeholder that is younger than a store can be given its body in an extension of it. -/
theorem Extends.filled {old : Store} (h : old.Extends st) (ht : old.size ≤ t) :
    old.Extends (st.filled t body) := by
  refine { h with cells := ?_, indexed := (indexed_filled hc).trans h.indexed }
  obtain ⟨rest, hrest⟩ := h.cells
  refine ⟨rest.set (t - old.cells.length) (.reserved (some body)), ?_⟩
  show _ = st.cells.set t (.reserved (some body))
  rw [← hrest, List.set_append_right _ _ ht]

theorem filled_lookup : (st.filled t body).lookup t = some body := by
  simp [lookup, filled_cell hc, Cell.node?]

theorem filled_form : (st.filled t body).form? t = some (st.form body) :=
  form_of_lookup (filled_lookup hc)

theorem filled_mentions : (st.filled t body).mentions t = (st.form body).mentions :=
  mentions_of_form (filled_form hc)

theorem filled_isReserved (u : TypeId) : (st.filled t body).isReserved u = st.isReserved u := by
  by_cases h : u = t
  · simp [isReserved, h, filled_cell hc, hc]
  · simp [isReserved, filled_cell_ne h]

theorem grows_filled (hk : body.isContainer = true) : st.Grows (st.filled t body) where
  cell {u cell} hu := by
    by_cases h : u = t
    · subst h
      cases hc.symm.trans hu
      exact .inr ⟨rfl, body, filled_cell hc, hk⟩
    · exact .inl ((filled_cell_ne h).trans hu)
  keys := id
  lists := .refl _
  tuples := .refl _
  shapes := .refl _
  signatures := .refl _

/-- It stays well formed, if the body mentions types of the store. -/
theorem WellFormed.filled (hw : st.WellFormed) (hk : body.isContainer = true) (hp : st.Placed body)
    (hm : ∀ c ∈ (st.form body).mentions, c < st.size) : (st.filled t body).WellFormed where
  founded kind := by
    have hne : kind.id ≠ t := by
      rintro rfl
      cases hc.symm.trans (hw.founded kind)
    rw [filled_cell_ne hne, hw.founded kind]
  indexed := (indexed_filled hc).mpr hw.indexed
  sound u := by
    have hunion (ms : List TypeId) : st.form body ≠ .union ms := fun he => by
      simpa [he, Form.isContainer, hk] using st.form_isContainer body
    by_cases h : u = t
    · subst h
      refine ⟨fun hn => ?_, fun hmem => ?_, fun hr => ?_, fun _ hn => ?_, fun hf => ?_⟩
      · cases (filled_lookup hc).symm.trans hn
        exact (grows_filled hc hk).widens.placed hp
      · rw [filled_size]
        exact hm _ (filled_mentions hc ▸ hmem)
      · rw [filled_isReserved hc] at hr
        simp [isReserved, hc] at hr
      · cases (filled_lookup hc).symm.trans hn
        exact hk
      · exact absurd (Option.some.inj ((filled_form hc).symm.trans hf)) (hunion _)
    · have hs := hw.sound u
      have hl : (st.filled t body).lookup u = st.lookup u := by
        simp only [lookup, filled_cell_ne h]
      refine ⟨fun hn => ?_, fun hmem => ?_, fun hr hmem => ?_, fun hr hn => ?_, fun hf => ?_⟩
      · exact (grows_filled hc hk).widens.placed (hs.placed (hl ▸ hn))
      · rw [filled_size]
        exact hs.inside (filled_mentions_ne h ▸ hmem)
      · exact hs.below (filled_isReserved hc u ▸ hr) (filled_mentions_ne h ▸ hmem)
      · exact hs.container (filled_isReserved hc u ▸ hr) (hl ▸ hn)
      · rw [filled_form_ne h] at hf
        obtain ⟨hlen, hms⟩ := hs.union hf
        refine ⟨hlen, fun m hmem ls hf' => ?_⟩
        by_cases hmt : m = t
        · subst hmt
          exact hunion ls (Option.some.inj ((filled_form hc).symm.trans hf'))
        · exact hms m hmem ls (filled_form_ne hmt ▸ hf')
  conditional h := by
    rw [filled_size]
    exact hw.conditional h

/-- The body may be the one that a type of the store has. -/
theorem WellFormed.copied (hw : st.WellFormed) (hk : body.isContainer = true) {a : TypeId}
    (hb : st.lookup a = some body) : (st.filled t body).WellFormed :=
  hw.filled hc hk ((hw.sound a).placed hb) fun _ hm =>
    (hw.sound a).inside (mentions_of_form (form_of_lookup hb) ▸ hm)

end Filled

end TypeCalculus.Store
