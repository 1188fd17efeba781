import TypeCalculus.Literal
import TypeCalculus.Wrapper

namespace TypeCalculus

/-- A position of a tuple or of a parameter list. -/
structure Slot where
  type : TypeId
  name : Option String := none
  optional : Bool := false
  rest : Bool := false
deriving DecidableEq, Repr

structure Field where
  name : String
  type : TypeId
  optional : Bool := false
  readonly : Bool := false
deriving DecidableEq, Repr

/-- What an object holds under every name that has no field. -/
structure IndexSignature where
  type : TypeId
  readonly : Bool := false
deriving DecidableEq, Repr

structure Shape where
  fields : List Field := []
  index : Option IndexSignature := none
deriving DecidableEq, Repr

def Shape.field? (shape : Shape) (name : String) : Option Field :=
  shape.fields.find? (·.name = name)

/-- The receiver is the type that a function wants its `this` to have, if it says so. -/
structure Signature where
  receiver : Option TypeId := none
  params : List Slot := []
  result : TypeId
deriving DecidableEq, Repr

/-- A place in the table of member lists. -/
abbrev ListId := Nat

/-- A place in the table of tuple lists. -/
abbrev TupleId := Nat

abbrev ShapeId := Nat
abbrev SignatureId := Nat

inductive Node
  | intrinsic (kind : Intrinsic)
  | literal (value : Literal)
  | union (members : ListId)
  | intersection (members : ListId)
  | object (shape : ShapeId)
  | array (element : TypeId)
  | tuple (elements : TupleId)
  | function (signature : SignatureId)
  | constructor (signature : SignatureId)
  | wrapper (kind : Wrapper) (args : ListId)
  | infer (name : String)
  | param (name : String)
deriving DecidableEq, Repr

end TypeCalculus
