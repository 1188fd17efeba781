import TypeCalculus.Bindings
import TypeCalculus.Descent
import TypeCalculus.Store.Build
import TypeCalculus.Store.Reach

namespace TypeCalculus

/-- A substitution remembers what it has rebuilt, from one call to the next. -/
structure Substitution where
  guard : Guard TypeId
  infers : Bindings := .empty
  params : Bindings := .empty
  memo : Dict TypeId TypeId := .empty
deriving Repr

instance : Guarded Substitution TypeId := ⟨Substitution.guard, fun guard s => { s with guard }⟩

abbrev SubstM := StateT Substitution StoreM

namespace Substitution

def start (limits : Limits := .substitution) : Substitution := { guard := .start limits }

def ofBindings (bindings : Bindings) : Substitution := { start with infers := bindings }

def bindInfer (s : Substitution) (name : String) (t : TypeId) : Substitution :=
  { s with infers := s.infers.insert name t }

def bindParam (s : Substitution) (name : String) (t : TypeId) : Substitution :=
  { s with params := s.params.insert name t }

def remember (t answer : TypeId) : SubstM Unit :=
  modify fun s => { s with memo := s.memo.insert t answer }

section Step

variable (replace : TypeId → SubstM TypeId)

/-- Replaces in a slot. A rest slot that comes to hold a tuple gives way to the tuple's slots. -/
def replaceSlot (slot : Slot) : SubstM (List Slot) := do
  let type ← replace slot.type
  let st ← getThe Store
  match slot.rest, st.lookup type with
  | true, some (.tuple elements) => return st.slots elements
  | _, _ => return [{ slot with type }]

def replaceSlots (slots : List Slot) : SubstM (List Slot) :=
  return (← slots.mapM (replaceSlot replace)).flatten

def replaceField (field : Field) : SubstM Field :=
  return { field with type := ← replace field.type }

def replaceIndex : Option IndexSignature → SubstM (Option IndexSignature)
  | none => return none
  | some index => return some { index with type := ← replace index.type }

def replaceReceiver : Option TypeId → SubstM (Option TypeId)
  | none => return none
  | some t => return some (← replace t)

def replaceSignature (signature : Signature) : SubstM Signature := do
  let receiver ← replaceReceiver replace signature.receiver
  let params ← replaceSlots replace signature.params
  let result ← replace signature.result
  return { receiver, params, result }

/-- Replaces in the parts of a type and puts them together again. -/
def rebuild (t : TypeId) : SubstM TypeId := do
  let st ← getThe Store
  match st.lookup t with
  | none | some (.intrinsic _) | some (.literal _) => return t
  | some (.infer name) => return ((← get).infers.get? name).getD .never
  | some (.param name) => return ((← get).params.get? name).getD t
  | some (.union members) => do
    let types ← (st.list members).mapM replace
    Store.mkUnion types
  | some (.intersection members) => do
    let types ← (st.list members).mapM replace
    Store.mkIntersection types
  | some (.object id) => do
    let fields ← (st.shape id).fields.mapM (replaceField replace)
    let index ← replaceIndex replace (st.shape id).index
    Store.mkObject { fields, index }
  | some (.array element) => do
    let type ← replace element
    Store.mkArray type
  | some (.tuple elements) => do
    let slots ← replaceSlots replace (st.slots elements)
    Store.mkTuple slots
  | some (.function id) => do
    let signature ← replaceSignature replace (st.signature id)
    Store.mkFunction signature
  | some (.constructor id) => do
    let signature ← replaceSignature replace (st.signature id)
    Store.mkConstructor signature.params signature.result
  | some (.wrapper kind args) => do
    let types ← (st.list args).mapM replace
    Store.mkWrapper kind types

/-- Rebuilds a placeholder. Whoever meets it again meanwhile gets the fresh one. -/
def rebuildReserved (t : TypeId) : SubstM TypeId := do
  let fresh ← Store.reserve
  remember t fresh
  let rebuilt ← rebuild replace t
  let body := ((← getThe Store).lookup rebuilt).getD (.intrinsic .never)
  match ← Store.define fresh body with
  | .ok () => return fresh
  | .error _ =>
    remember t rebuilt
    return rebuilt

def rebuildAny (t : TypeId) : SubstM TypeId := do
  if (← getThe Store).isReserved t then rebuildReserved replace t
  else
    let rebuilt ← rebuild replace t
    remember t rebuilt
    return rebuilt

def step (t : TypeId) : SubstM TypeId := do
  if t.isIntrinsic then return t
  let s ← get
  match s.memo.get? t with
  | some known => return known
  | none =>
    if (← getThe Store).containsBound s.params.contains t then
      visit t t .never (rebuildAny replace t)
    else
      remember t t
      return t

end Step

/-- Replaces the variables in a type. -/
def apply (t : TypeId) : SubstM TypeId := do
  descend step (fun _ => return .never) (← get).guard.limits.depth t

/-- Replaces the variables in one type, and forgets the substitution. -/
def applyOnce (s : Substitution) (t : TypeId) : StoreM TypeId := do
  let (answer, _) ← (apply t).run s
  return answer

end Substitution

end TypeCalculus
