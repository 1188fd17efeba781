import TypeCalculus.Operator
import TypeCalculus.Store.Error
import TypeCalculus.Table

namespace TypeCalculus

inductive Cell
  | interned (node : Node)
  | reserved (body : Option Node)
deriving DecidableEq, Repr

def Cell.node? : Cell → Option Node
  | .interned node => some node
  | .reserved body => body

/-- A type's identifier is the place of its cell. Interning gives equal nodes one cell; a cell can
also be reserved first and defined later, which is how a type comes to mention itself. -/
structure Store where
  cells : List Cell
  /-- Where each node is interned. -/
  keys : Dict Node TypeId
  lists : Table (List TypeId)
  tuples : Table (List Slot)
  shapes : Table Shape
  signatures : Table Signature
  conditionals : Table Conditional
  mappings : Table Mapping
deriving DecidableEq, Repr

/-- Work that may add types to a store. -/
abbrev StoreM := StateM Store

namespace Store

/-- The store that holds the intrinsic types only. The empty list has number zero in both tables of
lists. -/
def initial : Store where
  cells := Intrinsic.all.map fun kind => .interned (.intrinsic kind)
  keys := ⟨Intrinsic.all.map fun kind => (.intrinsic kind, kind.id)⟩
  lists := Table.add {} []
  tuples := Table.add {} []
  shapes := {}
  signatures := {}
  conditionals := {}
  mappings := {}

def size (st : Store) : Nat := st.cells.length

/-- Nothing but the intrinsic types. -/
def isEmpty (st : Store) : Bool := st.size ≤ Intrinsic.all.length

/-- What a type is made of; nothing for a foreign place or a placeholder without a body. -/
def lookup (st : Store) (t : TypeId) : Option Node := st.cells[t]?.bind Cell.node?

def resolve (st : Store) (t : TypeId) : Except StoreError Node :=
  match st.cells[t]? with
  | none => .error (.unknown t)
  | some (.reserved none) => .error (.undefined t)
  | some (.reserved (some node)) | some (.interned node) => .ok node

def isReserved (st : Store) (t : TypeId) : Bool :=
  match st.cells[t]? with
  | some (.reserved _) => true
  | _ => false

def list (st : Store) (id : ListId) : List TypeId := (st.lists.get? id).getD []

def slots (st : Store) (id : TupleId) : List Slot := (st.tuples.get? id).getD []

def shape (st : Store) (id : ShapeId) : Shape := (st.shapes.get? id).getD {}

def signature (st : Store) (id : SignatureId) : Signature :=
  (st.signatures.get? id).getD { result := .never }

def conditional (st : Store) (id : ConditionalId) : Conditional :=
  (st.conditionals.get? id).getD { pattern := .never, yes := .never, no := .never }

def mapping (st : Store) (id : MappingId) : Mapping := (st.mappings.get? id).getD {}

def shapeOf? (st : Store) (t : TypeId) : Option Shape :=
  match st.lookup t with
  | some (.object id) => some (st.shape id)
  | _ => none

/-- A union stands for its members, `never` for none, any other type for itself. -/
def unionMembers (st : Store) (t : TypeId) : List TypeId :=
  if t = .never then []
  else match st.lookup t with
    | some (.union members) => st.list members
    | _ => [t]

def intersectionMembers (st : Store) (t : TypeId) : List TypeId :=
  match st.lookup t with
  | some (.intersection members) => st.list members
  | _ => [t]

def isLiteral (st : Store) (t : TypeId) : Bool :=
  match st.lookup t with
  | some (.literal _) => true
  | _ => false

/-- The types whose values are not primitive. -/
def isObjectLike (st : Store) (t : TypeId) : Bool :=
  t = .object ||
    match st.lookup t with
    | some (.object _) | some (.array _) | some (.tuple _) => true
    | some (.function _) | some (.constructor _) | some (.wrapper _ _) => true
    | _ => false

def add (st : Store) (node : Node) : Store :=
  { st with cells := st.cells ++ [.interned node], keys := st.keys.insert node st.size }

def intern (node : Node) : StoreM TypeId := modifyGet fun st =>
  match node with
  | .intrinsic kind => (kind.id, st)
  | node => match st.keys.get? node with
    | some t => (t, st)
    | none => (st.size, st.add node)

def internList (members : List TypeId) : StoreM ListId := modifyGet fun st =>
  let (id, lists) := st.lists.intern members
  (id, { st with lists })

def internSlots (slots : List Slot) : StoreM TupleId := modifyGet fun st =>
  let (id, tuples) := st.tuples.intern slots
  (id, { st with tuples })

def internShape (shape : Shape) : StoreM ShapeId := modifyGet fun st =>
  let (id, shapes) := st.shapes.intern shape
  (id, { st with shapes })

def internSignature (signature : Signature) : StoreM SignatureId := modifyGet fun st =>
  let (id, signatures) := st.signatures.intern signature
  (id, { st with signatures })

def internConditional (conditional : Conditional) : StoreM ConditionalId := modifyGet fun st =>
  let (id, conditionals) := st.conditionals.intern conditional
  (id, { st with conditionals })

def internMapping (mapping : Mapping) : StoreM MappingId := modifyGet fun st =>
  let (id, mappings) := st.mappings.intern mapping
  (id, { st with mappings })

/-- Takes a fresh cell whose body is still to come. -/
def reserve : StoreM TypeId := modifyGet fun st =>
  (st.size, { st with cells := st.cells ++ [.reserved none] })

/-- Gives a placeholder its body, once. -/
def define (t : TypeId) (body : Node) : StoreM (Except StoreError Unit) := modifyGet fun st =>
  match st.cells[t]? with
  | none => (.error (.unknown t), st)
  | some (.interned _) => (.error (.notReserved t), st)
  | some (.reserved (some _)) => (.error (.alreadyDefined t), st)
  | some (.reserved none) =>
    (.ok (), { st with cells := st.cells.set t (.reserved (some body)) })

end Store

end TypeCalculus
