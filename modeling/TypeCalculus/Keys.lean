import TypeCalculus.Descent
import TypeCalculus.Store.Build

namespace TypeCalculus.Store

section Step

variable (keys : TypeId → StoreM TypeId)

def keyMembers (t : TypeId) : StoreM (List TypeId) := do
  let all ← keys t
  return (← get).unionMembers all

/-- The keys that all the given types have, in the order of the first one. -/
def commonKeys : List TypeId → StoreM (List TypeId)
  | [] => return []
  | first :: rest => do
    let own ← keyMembers keys first
    rest.foldlM (fun common t => do
      let others ← keyMembers keys t
      return common.filter (· ∈ others)) own

def keysOfShape (shape : Shape) : StoreM TypeId := do
  let names ← shape.fields.mapM fun field => mkLiteral (.string field.name)
  mkUnion (names ++ if shape.index.isSome then [.string] else [])

/-- A tuple has its positions as names, and any number as a key. -/
def keysOfTuple (length : Nat) : StoreM TypeId := do
  let names ← (List.range length).mapM fun position => mkLiteral (.string (toString position))
  mkUnion (names ++ [.number])

/-- A union has the keys that all its members share, an intersection those of any member. -/
def keysStep (t : TypeId) : StoreM TypeId := do
  let st ← get
  if t = .any then mkUnion [.string, .number, .symbol]
  else match st.lookup t with
    | some (.object id) => keysOfShape (st.shape id)
    | some (.union members) => do
      let common ← commonKeys keys (st.list members)
      mkUnion common
    | some (.intersection members) => do
      let all ← (st.list members).mapM keys
      mkUnion all
    | some (.array _) => return .number
    | some (.tuple id) => keysOfTuple (st.slots id).length
    | _ => return .never

end Step

/-- The keys of a type. A chain of members that does not repeat fits into the store, but for a union
of keys built on the way and the key that ends it. -/
def keyof (t : TypeId) : StoreM TypeId := do
  descend keysStep (fun _ => return .never) ((← get).size + 1) t

/-- The value under a key that has a name, `undefined` included where the field is optional. -/
def valueOfField (shape : Shape) (name : String) : StoreM TypeId :=
  match shape.field? name, shape.index with
  | some field, _ => if field.optional then mkUnion [field.type, .undefined] else return field.type
  | none, some index => return index.type
  | none, none => return .never

/-- The element at a position; a rest element has none. -/
def elementAt (slots : List Slot) (position : Nat) : TypeId :=
  match slots[position]? with
  | some slot => if slot.rest then .never else slot.type
  | none => .never

/-- What one type holds under one key. -/
def valueAt (object key : TypeId) : StoreM TypeId := do
  let st ← get
  match st.lookup object, st.lookup key with
  | some (.object id), some (.literal (.string name)) => valueOfField (st.shape id) name
  | some (.object id), _ =>
    if key = .string then
      mkUnion ((st.shape id).fields.map Field.type ++
        (st.shape id).index.toList.map IndexSignature.type)
    else return .never
  | some (.array element), some (.literal (.number _)) => return element
  | some (.array element), _ => return if key = .number then element else .never
  | some (.tuple id), some (.literal value) =>
    return (value.position?.map (elementAt (st.slots id))).getD .never
  | some (.tuple id), _ =>
    if key = .number then mkUnion ((st.slots id).map Slot.type) else return .never
  | _, _ => return .never

/-- What a type holds under a key, for each member of the key type and each member of the type. -/
def indexAccess (object key : TypeId) : StoreM TypeId :=
  if object = .any || key = .any then return .any
  else distribute key fun key => distribute object fun object => valueAt object key

/-- All values of a type. -/
def valueOf (t : TypeId) : StoreM TypeId := do
  let keys ← keyof t
  indexAccess t keys

/-- The names among the members of a type of keys. -/
def keyNames (st : Store) (keys : TypeId) : List String :=
  (st.unionMembers keys).filterMap fun t =>
    match st.lookup t with
    | some (.literal (.string name)) => some name
    | _ => none

end TypeCalculus.Store
