import TypeCalculus.Dict
import TypeCalculus.Store.Members

namespace TypeCalculus

inductive Variance
  | covariant | contravariant
deriving DecidableEq, Repr

def Variance.flip : Variance → Variance
  | .covariant => .contravariant
  | .contravariant => .covariant

/-- Names and what they stand for, in the order in which they were first bound. -/
abbrev Bindings := Dict String TypeId

namespace Bindings

/-- Adds a candidate for a name. -/
def bind (bindings : Bindings) (name : String) (candidate : TypeId) (variance : Variance) :
    StoreM Bindings := do
  match bindings.get? name, variance with
  | none, _ => return bindings.insert name candidate
  | some held, .covariant => return bindings.insert name (← Store.mkUnion [held, candidate])
  | some held, .contravariant =>
    return bindings.insert name (← Store.mkIntersection [held, candidate])

end Bindings

end TypeCalculus
