import TypeCalculus.Evaluator.Mapping
import TypeCalculus.Evaluator.Signature

namespace TypeCalculus.Evaluator

def inferType (subject : TypeId) : EvalM TypeId := do
  let u ← Store.mkInfer "U"
  inferred u u subject

/-- The element type of arrays and tuples. -/
def inferArray (subject : TypeId) : EvalM TypeId := do
  let u ← Store.mkInfer "U"
  let pattern ← Store.mkArray u
  inferred pattern u subject

def inferTuple (subject : TypeId) : EvalM TypeId := inferArray subject

/-- The values of an object. -/
def inferObject (subject : TypeId) : EvalM TypeId := do
  let u ← Store.mkInfer "U"
  let pattern ← Store.mkObject { index := some { type := u } }
  inferred pattern u subject

/-- The argument of a wrapper at a position. -/
def inferArgument (kind : Wrapper) (position : Nat) (subject : TypeId) : EvalM TypeId := do
  let u ← Store.mkInfer "U"
  let pattern ← Store.mkWrapper kind (List.replicate position TypeId.any ++ [u])
  inferred pattern u subject

def inferPromise (subject : TypeId) : EvalM TypeId := inferArgument .promise 0 subject

def inferIterable (subject : TypeId) : EvalM TypeId := inferArgument .iterable 0 subject

def inferAsyncIterable (subject : TypeId) : EvalM TypeId := inferArgument .asyncIterable 0 subject

def inferIterator (subject : TypeId) : EvalM TypeId := inferArgument .iterator 0 subject

def inferIteratorResult (subject : TypeId) : EvalM TypeId := inferArgument .iterator 1 subject

def inferAsyncIterator (subject : TypeId) : EvalM TypeId := inferArgument .asyncIterator 0 subject

def inferAsyncIteratorResult (subject : TypeId) : EvalM TypeId :=
  inferArgument .asyncIterator 1 subject

def inferGenerator (subject : TypeId) : EvalM TypeId := inferArgument .generator 0 subject

def inferGeneratorResult (subject : TypeId) : EvalM TypeId := inferArgument .generator 1 subject

def inferAsyncGenerator (subject : TypeId) : EvalM TypeId := inferArgument .asyncGenerator 0 subject

def inferAsyncGeneratorResult (subject : TypeId) : EvalM TypeId :=
  inferArgument .asyncGenerator 1 subject

/-- The element type of a sequence, if the member is one. -/
def elementOf? (array u member : TypeId) : EvalM (Option TypeId) := do
  match ← matches? member array with
  | some bindings => return some (← replaceInfers bindings u)
  | none => return none

/-- The fields of an object as they are, if the member is one. -/
def fieldsOf? (same : MappingId) (member : TypeId) : EvalM (Option TypeId) := do
  match ← matches? member .object with
  | some _ => return some (← applyMapping same member)
  | none => return none

/-- The elements of sequences and the fields of other objects. -/
def inferArrayOrObject (subject : TypeId) : EvalM TypeId := do
  let u ← Store.mkInfer "U"
  let array ← Store.mkArray u
  let same ← Store.internMapping {}
  Store.distribute subject fun member => do
    match ← elementOf? array u member with
    | some element => return element
    | none => return (← fieldsOf? same member).getD .never

/-- The fields of objects, sequences included, and otherwise the elements. -/
def inferObjectOrArray (subject : TypeId) : EvalM TypeId := do
  let u ← Store.mkInfer "U"
  let array ← Store.mkArray u
  let same ← Store.internMapping {}
  Store.distribute subject fun member => do
    match ← fieldsOf? same member with
    | some fields => return fields
    | none => return (← elementOf? array u member).getD .never

end TypeCalculus.Evaluator
