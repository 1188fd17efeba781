import TypeCalculus.Evaluator.Conditional

namespace TypeCalculus.Evaluator

section Step

variable (id : MappingId) (mapping : Mapping) (member : TypeId → EvalM TypeId)

/-- Inside a value, only objects, arrays and tuples are mapped further. -/
def mapInner (t : TypeId) : EvalM TypeId := do
  match (← getThe Store).lookup t with
  | some (.object _) | some (.array _) | some (.tuple _) => member t
  | _ => return t

def mapValue (value : TypeId) : EvalM TypeId :=
  match mapping.value with
  | .keep => return value
  | .conditional c => applyConditional c value
  | .deep => Store.distribute value (mapInner member)

def mapField (field : Field) : EvalM Field := do
  return { field with
    type := ← mapValue mapping member field.type
    optional := Modifier.apply mapping.optional field.optional
    readonly := Modifier.apply mapping.readonly field.readonly }

def mapIndex : Option IndexSignature → EvalM (Option IndexSignature)
  | none => return none
  | some index =>
    if mapping.keys.keepsIndex then do
      return some {
        type := ← mapValue mapping member index.type
        readonly := Modifier.apply mapping.readonly index.readonly }
    else return none

def mapShape (shape : Shape) : EvalM Shape := do
  let fields ← (shape.fields.filter (mapping.keys.accepts ·.name)).mapM (mapField mapping member)
  let index ← mapIndex mapping member shape.index
  return { fields, index }

/-- A rest element is never optional. -/
def mapElement (slot : Slot) : EvalM Slot := do
  return { slot with
    type := ← mapValue mapping member slot.type
    optional := !slot.rest && Modifier.apply mapping.optional slot.optional }

/-- Objects are rebuilt field by field, and arrays and tuples when no key is filtered out; anything
else maps to `never`. -/
def mapStructure (subject : TypeId) : EvalM TypeId := do
  let st ← getThe Store
  match st.lookup subject, mapping.keys with
  | some (.object shape), _ => do
    let shape ← mapShape mapping member (st.shape shape)
    Store.mkObject shape
  | some (.array element), .all => do
    let element ← mapValue mapping member element
    Store.mkArray element
  | some (.tuple elements), .all => do
    let slots ← (st.slots elements).mapM (mapElement mapping member)
    Store.mkTuple slots
  | _, _ => return .never

def mapMember (subject : TypeId) : EvalM TypeId :=
  let task : Task := ⟨.mapping id, subject⟩
  memoized task do
    let mapping := (← getThe Store).mapping id
    if mapping.value = .deep then
      openFixedPoint task
      closeFixedPoint task (← mapStructure mapping member subject)
    else mapStructure mapping member subject

end Step

/-- Applies a mapping to each member of the subject. -/
def applyMapping (id : MappingId) (subject : TypeId) : EvalM TypeId := do
  let room := (← get).limits.depth
  Store.distribute subject (descend (mapMember id) (fun _ => return .never) room)

/-- Interns a mapping and applies it. -/
def mapWith (mapping : Mapping) (subject : TypeId) : EvalM TypeId := do
  let id ← Store.internMapping mapping
  applyMapping id subject

end TypeCalculus.Evaluator
