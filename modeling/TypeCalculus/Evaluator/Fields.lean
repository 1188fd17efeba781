import TypeCalculus.Evaluator.Filter
import TypeCalculus.Evaluator.Mapping
import TypeCalculus.Keys

namespace TypeCalculus.Evaluator

def pick (subject : TypeId) (names : List String) : EvalM TypeId :=
  mapWith { keys := .only names } subject

def leaveOut (subject : TypeId) (names : List String) : EvalM TypeId :=
  mapWith { keys := .without names } subject

/-- Picks the fields named by a type of keys. -/
def pickKeys (subject keys : TypeId) : EvalM TypeId := do
  pick subject ((← getThe Store).keyNames keys)

/-- Picks the fields whose keys cannot be assigned to a type of keys. -/
def omitKeys (subject keys : TypeId) : EvalM TypeId := do
  let own ← Store.keyof subject
  let kept ← exclude own keys
  pickKeys subject kept

def partialFields (subject : TypeId) : EvalM TypeId := mapWith { optional := some .add } subject

def requiredFields (subject : TypeId) : EvalM TypeId :=
  mapWith { optional := some .remove } subject

def readonlyFields (subject : TypeId) : EvalM TypeId := mapWith { readonly := some .add } subject

def deepPartial (subject : TypeId) : EvalM TypeId :=
  mapWith { value := .deep, optional := some .add } subject

def deepRequired (subject : TypeId) : EvalM TypeId :=
  mapWith { value := .deep, optional := some .remove } subject

def deepReadonly (subject : TypeId) : EvalM TypeId :=
  mapWith { value := .deep, readonly := some .add } subject

/-- An object with the same type under each name. -/
def record (names : List String) (value : TypeId) : StoreM TypeId :=
  Store.mkObject { fields := names.eraseDups.map fun name => { name, type := value } }

end TypeCalculus.Evaluator
