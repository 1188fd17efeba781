import TypeCalculus.Proofs.Mapping

namespace TypeCalculus

theorem Modifier.apply_or (second first : Option Modifier) (flag : Bool) :
    apply (second.or first) flag = apply second (apply first flag) := by
  rcases second with _ | _ | _ <;> rfl

theorem Modifier.apply_twice (m : Option Modifier) (flag : Bool) :
    apply m (apply m flag) = apply m flag := by
  rcases m with _ | _ | _ <;> rfl

namespace KeyFilter

def andThen : KeyFilter → KeyFilter → KeyFilter
  | .all, second => second
  | first, .all => first
  | .only names, .only others => .only (names.filter (· ∈ others))
  | .only names, .without others => .only (names.filter (· ∉ others))
  | .without names, .only others => .only (others.filter (· ∉ names))
  | .without names, .without others => .without (names ++ others)

inductive Alike : KeyFilter → KeyFilter → Prop
  | all : Alike .all .all
  | only {names others : List String} (h : names ⊆ others) (h' : others ⊆ names) :
    Alike (.only names) (.only others)
  | without {names others : List String} (h : names ⊆ others) (h' : others ⊆ names) :
    Alike (.without names) (.without others)

variable (first second : KeyFilter)

/-- The composed filter accepts the keys that both accept. -/
theorem accepts_andThen (name : String) :
    (first.andThen second).accepts name = (first.accepts name && second.accepts name) := by
  cases first <;> cases second <;> simp [andThen, accepts, List.mem_filter, Bool.and_comm]

theorem keepsIndex_andThen :
    (first.andThen second).keepsIndex = (first.keepsIndex && second.keepsIndex) := by
  cases first <;> cases second <;> rfl

theorem andThen_eq_all : first.andThen second = .all ↔ first = .all ∧ second = .all := by
  cases first <;> cases second <;> simp [andThen]

variable {first second}

theorem Alike.accepts (h : first.Alike second) (name : String) :
    first.accepts name = second.accepts name := by
  cases h with
  | all => rfl
  | only h h' => exact decide_eq_decide.mpr ⟨fun hm => h hm, fun hm => h' hm⟩
  | without h h' => exact decide_eq_decide.mpr (not_congr ⟨fun hm => h hm, fun hm => h' hm⟩)

theorem Alike.keepsIndex (h : first.Alike second) : first.keepsIndex = second.keepsIndex := by
  cases h <;> rfl

theorem Alike.eq_all (h : first.Alike second) : first = .all ↔ second = .all := by
  cases h <;> simp

end KeyFilter

namespace Mapping

/-- The last mapping has the composed filter of the other two, and each of its modifiers is that of
the second mapping, or else that of the first. All three keep the values. -/
structure Composes (first second whole : Mapping) : Prop where
  keys : whole.keys.Alike (first.keys.andThen second.keys)
  optional : whole.optional = second.optional.or first.optional
  readonly : whole.readonly = second.readonly.or first.readonly
  first : first.value = .keep
  second : second.value = .keep
  whole : whole.value = .keep

/-- As far as keys and flags go, the last mapping does what the other two do one after the other. -/
structure Chains (first second whole : Mapping) : Prop where
  accepts (name : String) :
    whole.keys.accepts name = (first.keys.accepts name && second.keys.accepts name)
  keepsIndex : whole.keys.keepsIndex = (first.keys.keepsIndex && second.keys.keepsIndex)
  all : whole.keys = .all ↔ first.keys = .all ∧ second.keys = .all
  optional (flag : Bool) : Modifier.apply whole.optional flag =
    Modifier.apply second.optional (Modifier.apply first.optional flag)
  readonly (flag : Bool) : Modifier.apply whole.readonly flag =
    Modifier.apply second.readonly (Modifier.apply first.readonly flag)

variable {first second whole : Mapping}

theorem Composes.chains (h : first.Composes second whole) : first.Chains second whole where
  accepts name := by rw [h.keys.accepts, KeyFilter.accepts_andThen]
  keepsIndex := by rw [h.keys.keepsIndex, KeyFilter.keepsIndex_andThen]
  all := by rw [h.keys.eq_all, KeyFilter.andThen_eq_all]
  optional flag := by rw [h.optional, Modifier.apply_or]
  readonly flag := by rw [h.readonly, Modifier.apply_or]

/-- Once both have been applied, applying one of them first or all of it again makes no
difference. -/
theorem Chains.absorbs_first (h : first.Chains second whole) : first.Chains whole whole where
  accepts name := by rw [h.accepts, ← Bool.and_assoc, Bool.and_self]
  keepsIndex := by rw [h.keepsIndex, ← Bool.and_assoc, Bool.and_self]
  all := ⟨fun ha => ⟨(h.all.mp ha).1, ha⟩, fun ha => ha.2⟩
  optional flag := by rw [h.optional, h.optional, Modifier.apply_twice]
  readonly flag := by rw [h.readonly, h.readonly, Modifier.apply_twice]

/-- A mapping that was composed with another absorbs it. -/
theorem Composes.absorbs_second (h : first.Composes second whole) : second.Chains whole whole where
  accepts name := by rw [h.chains.accepts, Bool.and_left_comm, Bool.and_self]
  keepsIndex := by rw [h.chains.keepsIndex, Bool.and_left_comm, Bool.and_self]
  all := ⟨fun ha => ⟨(h.chains.all.mp ha).2, ha⟩, fun ha => ha.2⟩
  optional flag := by rw [h.optional]; rcases second.optional with _ | _ | _ <;> rfl
  readonly flag := by rw [h.readonly]; rcases second.readonly with _ | _ | _ <;> rfl

theorem chains_self (m : Mapping) : m.Chains m m where
  accepts _ := (Bool.and_self _).symm
  keepsIndex := (Bool.and_self _).symm
  all := (and_self_iff).symm
  optional flag := (Modifier.apply_twice m.optional flag).symm
  readonly flag := (Modifier.apply_twice m.readonly flag).symm

section Images

variable (m : Mapping)

def field (x : Field) : Field :=
  { x with
    optional := Modifier.apply m.optional x.optional
    readonly := Modifier.apply m.readonly x.readonly }

def index (x : IndexSignature) : IndexSignature :=
  { x with readonly := Modifier.apply m.readonly x.readonly }

def shape (x : Shape) : Shape where
  fields := (x.fields.filter (m.keys.accepts ·.name)).map m.field
  index := if m.keys.keepsIndex then x.index.map m.index else none

def slot (x : Slot) : Slot := { x with optional := !x.rest && Modifier.apply m.optional x.optional }

def image : Form → Option Form
  | .object x => some (.object (m.shape x))
  | .array element => if m.keys = .all then some (.array element) else none
  | .tuple slots => if m.keys = .all then some (.tuple (slots.map m.slot)) else none
  | _ => none

variable {m}

/-- A mapping makes something of a form exactly if the form has an image. -/
theorem maps_eq (m : Mapping) (f : Form) : m.maps f = (m.image f).isSome := by
  cases f <;> simp only [maps, image, Option.isSome_some, Option.isSome_none]
  all_goals split <;> simp_all

/-- The image of a container is a container. -/
theorem isContainer_image {f g : Form} (h : m.image f = some g) : g.isContainer = true := by
  unfold image at h
  split at h
  · cases h
    rfl
  · split at h <;> cases h
    rfl
  · split at h <;> cases h
    rfl
  · cases h

end Images

section Chains

variable (h : first.Chains second whole)

include h

theorem Chains.field (x : Field) : second.field (first.field x) = whole.field x := by
  simp only [Mapping.field, h.optional, h.readonly]

/-- Of an object two mappings make what the third one makes. -/
theorem Chains.shape (x : Shape) : second.shape (first.shape x) = whole.shape x := by
  have hfields : second.field ∘ first.field = whole.field := funext h.field
  have hindex : second.index ∘ first.index = whole.index := by
    funext x
    simp only [Function.comp, Mapping.index, h.readonly]
  have hname : (fun x : Field => second.keys.accepts x.name) ∘ first.field =
      fun x : Field => second.keys.accepts x.name := rfl
  simp only [Mapping.shape, List.filter_map, List.map_map, hname, List.filter_filter,
    hfields, h.accepts, h.keepsIndex, Shape.mk.injEq, Bool.and_comm, true_and]
  cases first.keys.keepsIndex <;> cases second.keys.keepsIndex <;> simp [hindex]

theorem Chains.slot (x : Slot) : second.slot (first.slot x) = whole.slot x := by
  cases hr : x.rest <;> simp [Mapping.slot, hr, h.optional]

/-- Mapping a type twice makes of it what the composed mapping makes at once. -/
theorem Chains.image_bind (f : Form) : (first.image f).bind second.image = whole.image f := by
  cases f with
  | object x => exact congrArg (some ∘ Form.object) (h.shape x)
  | array element =>
    by_cases h₁ : first.keys = .all <;> by_cases h₂ : second.keys = .all <;>
      simp [image, h.all, h₁, h₂]
  | tuple slots =>
    have hslots : second.slot ∘ first.slot = whole.slot := funext h.slot
    by_cases h₁ : first.keys = .all <;> by_cases h₂ : second.keys = .all <;>
      simp [image, h.all, h₁, h₂, hslots]
  | _ => rfl

end Chains

end Mapping

def Store.image? (st : Store) (m : Mapping) (x : TypeId) : Option Form := (st.form? x).bind m.image

theorem Store.image?_of_form {st : Store} {x : TypeId} {f : Form} (h : st.form? x = some f)
    (m : Mapping) :
    st.image? m x = m.image f := by
  rw [image?, h, Option.bind_some]

theorem Store.lt_size_of_image {st : Store} {m : Mapping} {x : TypeId} {g : Form}
    (h : st.image? m x = some g) : x < st.size := by
  obtain ⟨f, hf, _⟩ := Option.bind_eq_some_iff.mp h
  exact lt_size_of_form hf

namespace Evaluator

def remake (f : Option Form) : StoreM TypeId := (f.map Form.build).getD (return .never)

section Keeping

variable {m : Mapping} (hk : m.value = .keep) (member : TypeId → EvalM TypeId)

include hk

theorem mapValue_keep (t : TypeId) : mapValue m member t = pure t := by
  unfold mapValue
  rw [hk]

theorem mapShape_keep (x : Shape) : mapShape m member x = pure (m.shape x) := by
  have hfield : mapField m member = fun x => pure (m.field x) := by
    funext x
    simp only [mapField, mapValue_keep hk, pure_bind]
    rfl
  have hindex : mapIndex m member x.index =
      pure (if m.keys.keepsIndex then x.index.map m.index else none) := by
    cases x.index with
    | none => simp [mapIndex]
    | some i =>
      cases hi : m.keys.keepsIndex with
      | false => simp [mapIndex, hi]
      | true => simp [mapIndex, hi, mapValue_keep hk, Mapping.index]
  rw [mapShape, hfield, List.mapM_pure, hindex]
  simp only [pure_bind]
  rfl

/-- A mapping that keeps the values works out the image without asking for anything. -/
theorem mapForm_keep {f y : Form} (h : m.image f = some y) : mapForm m member f = pure y := by
  have hslot : mapElement m member = fun x => pure (m.slot x) := by
    funext x
    simp only [mapElement, mapValue_keep hk, pure_bind]
    rfl
  cases f with
  | object shape =>
    cases h
    simp only [mapForm, mapShape_keep hk, pure_bind]
  | array element =>
    obtain ⟨_, ⟨⟩⟩ := Option.ite_none_right_eq_some.mp h
    simp only [mapForm, mapValue_keep hk, pure_bind]
  | tuple slots =>
    obtain ⟨_, ⟨⟩⟩ := Option.ite_none_right_eq_some.mp h
    simp only [mapForm, hslot, List.mapM_pure, pure_bind]
  | _ => cases h

/-- A mapping that keeps the values makes the image of its subject and leaves the evaluator
alone. -/
theorem run_mapStructure (x : TypeId) (s : State) : Action.run (mapStructure m member x) s =
    let r := (remake (s.2.image? m x)).run s.2
    (r.1, s.1, r.2) := by
  have hread : Action.run (getThe Store : EvalM Store) s = (s.2, s) := rfl
  rw [mapStructure_eq, Action.run_bind, hread]
  cases hf : s.2.form? x with
  | none =>
    rw [Store.image?, hf, Option.bind_none]
    rfl
  | some f =>
    rw [Store.image?_of_form hf, mapFound, Mapping.maps_eq]
    cases hi : m.image f with
    | none => rfl
    | some y =>
      rw [Option.isSome_some, if_pos rfl, mapForm_keep hk member hi, pure_bind]
      rfl

end Keeping

end Evaluator

end TypeCalculus
