import TypeCalculus.Descent
import TypeCalculus.Store.Basic

namespace TypeCalculus

abbrev RenderM := StateM (Guard TypeId)

namespace Store

section Step

variable (st : Store) (write : TypeId → RenderM String)

def isSignature (t : TypeId) : Bool :=
  match st.lookup t with
  | some (.function _) | some (.constructor _) => true
  | _ => false

/-- An array's element is bracketed when it would otherwise run into the brackets that follow. -/
def needsParens (t : TypeId) : Bool :=
  match st.lookup t with
  | some (.union _) | some (.intersection _) => true
  | _ => st.isSignature t

def bracketed (brackets : Bool) (t : TypeId) : RenderM String := do
  let text ← write t
  return if brackets then "(" ++ text ++ ")" else text

/-- Members of a union or an intersection; only signatures are bracketed. -/
def writeMembers (separator : String) (members : List TypeId) : RenderM String := do
  let texts ← members.mapM fun t => bracketed write (st.isSignature t) t
  return separator.intercalate texts

def mark (flag : Bool) (text : String) : String := if flag then text else ""

/-- A named element carries the question mark on its name, an unnamed one on its type. -/
def writeElement (slot : Slot) : RenderM String := do
  let text ← write slot.type
  return mark slot.rest "..." ++ match slot.name with
    | some name => name ++ mark slot.optional "?" ++ ": " ++ text
    | none => text ++ mark slot.optional "?"

/-- Parameters without a name are called by their position. -/
def writeParam (slot : Slot) (position : Nat) : RenderM String := do
  let text ← write slot.type
  let name := slot.name.getD ("arg" ++ toString position)
  return mark slot.rest "..." ++ name ++ mark slot.optional "?" ++ ": " ++ text

def writeReceiver : Option TypeId → RenderM (List String)
  | none => return []
  | some t => return ["this: " ++ (← write t)]

def writeSignature (signature : Signature) : RenderM String := do
  let receiver ← writeReceiver write signature.receiver
  let params ← signature.params.zipIdx.mapM fun (slot, position) => writeParam write slot position
  let result ← write signature.result
  return "(" ++ ", ".intercalate (receiver ++ params) ++ ") => " ++ result

def writeIndex : Option IndexSignature → RenderM (List String)
  | none => return []
  | some index =>
      return [mark index.readonly "readonly " ++ "[key: string]: " ++ (← write index.type)]

def writeField (field : Field) : RenderM String := do
  let text ← write field.type
  return mark field.readonly "readonly " ++ field.name ++ mark field.optional "?" ++ ": " ++ text

/-- The index signature comes before the fields. -/
def writeShape (shape : Shape) : RenderM String := do
  let index ← writeIndex write shape.index
  let fields ← shape.fields.mapM (writeField write)
  match index ++ fields with
  | [] => return "\x7b\x7d"
  | parts => return "\x7b " ++ "; ".intercalate parts ++ " \x7d"

def writeNode (t : TypeId) : RenderM String := do
  match st.lookup t with
  | none => return "<undefined #" ++ toString t ++ ">"
  | some (.intrinsic kind) => return kind.name
  | some (.literal value) => return value.render
  | some (.union members) => writeMembers st write " | " (st.list members)
  | some (.intersection members) => writeMembers st write " & " (st.list members)
  | some (.object id) => writeShape write (st.shape id)
  | some (.array element) => return (← bracketed write (st.needsParens element) element) ++ "[]"
  | some (.tuple id) =>
    return "[" ++ ", ".intercalate (← (st.slots id).mapM (writeElement write)) ++ "]"
  | some (.function id) => writeSignature write (st.signature id)
  | some (.constructor id) => return "new " ++ (← writeSignature write (st.signature id))
  | some (.wrapper kind args) =>
    return kind.name ++ "<" ++ ", ".intercalate (← (st.list args).mapM write) ++ ">"
  | some (.infer name) => return "infer " ++ name
  | some (.param name) => return name

def renderStep (t : TypeId) : RenderM String :=
  visit t "..." "..." (writeNode st write t)

end Step

/-- Renders and returns the guard's final state with the text. -/
def runRender (st : Store) (t : TypeId) : String × Guard TypeId :=
  (descend st.renderStep (fun _ => return "...") Limits.rendering.depth t).run
    (.start .rendering)

def render (st : Store) (t : TypeId) : String := (st.runRender t).1

end Store

end TypeCalculus
