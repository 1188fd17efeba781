import TypeCalculus.Store.Members

namespace TypeCalculus.Store

def mkLiteral (value : Literal) : StoreM TypeId := intern (.literal value)

def mkInfer (name : String) : StoreM TypeId := intern (.infer name)

def mkParam (name : String) : StoreM TypeId := intern (.param name)

def mkArray (element : TypeId) : StoreM TypeId := intern (.array element)

def mkTuple (elements : List Slot) : StoreM TypeId := do
  intern (.tuple (← internSlots elements))

def mkObject (shape : Shape) : StoreM TypeId := do
  intern (.object (← internShape shape))

def mkFunction (signature : Signature) : StoreM TypeId := do
  intern (.function (← internSignature signature))

/-- Constructors have no receiver. -/
def mkConstructor (params : List Slot) (result : TypeId) : StoreM TypeId := do
  intern (.constructor (← internSignature { params, result }))

def mkWrapper (kind : Wrapper) (args : List TypeId) : StoreM TypeId := do
  intern (.wrapper kind (← internList args))

/-- The first name that has occurred before. -/
def firstRepeat (seen : List String) : List String → Option String
  | [] => none
  | name :: rest => if name ∈ seen then some name else firstRepeat (name :: seen) rest

def checkFields (fields : List Field) : Except StoreError Unit :=
  match firstRepeat [] (fields.map Field.name) with
  | some name => .error (.duplicateField name)
  | none => .ok ()

def checkedObject (shape : Shape) : StoreM (Except StoreError TypeId) := do
  match checkFields shape.fields with
  | .error e => return .error e
  | .ok () => return .ok (← mkObject shape)

def checkedWrapper (kind : Wrapper) (args : List TypeId) : StoreM (Except StoreError TypeId) := do
  if args.length < kind.minArgs || kind.maxArgs < args.length then
    return .error (.wrapperArity kind args.length)
  else return .ok (← mkWrapper kind args)

/-- Makes a placeholder an object. The fields are checked before the placeholder is. -/
def defineObject (t : TypeId) (shape : Shape) : StoreM (Except StoreError Unit) := do
  match checkFields shape.fields with
  | .error e => return .error e
  | .ok () => define t (.object (← internShape shape))

end TypeCalculus.Store
