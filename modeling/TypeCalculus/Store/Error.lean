import TypeCalculus.Node

namespace TypeCalculus

inductive StoreError
  | duplicateField (name : String)
  | wrapperArity (kind : Wrapper) (found : Nat)
  | notReserved (id : TypeId)
  | alreadyDefined (id : TypeId)
  | undefined (id : TypeId)
  | unknown (id : TypeId)
deriving DecidableEq, Repr

namespace StoreError

def place (id : TypeId) : String := "TypeId(" ++ toString id ++ ")"

def message : StoreError → String
  | .duplicateField name => "duplicate field `" ++ name ++ "` in object shape"
  | .wrapperArity kind found =>
    kind.name ++ " takes " ++ toString kind.minArgs ++ "..=" ++ toString kind.maxArgs ++
      " type arguments, got " ++ toString found
  | .notReserved id => "type " ++ place id ++ " is not a reserved placeholder"
  | .alreadyDefined id => "placeholder " ++ place id ++ " is already defined"
  | .undefined id => "placeholder " ++ place id ++ " was reserved but never defined"
  | .unknown id => "type " ++ place id ++ " does not belong to this arena"

end StoreError

end TypeCalculus
