import TypeCalculus.Evaluator.Filter

namespace TypeCalculus.Evaluator

/-- Extracts from each member what an infer variable of the pattern stands for. -/
def inferred (pattern infer : TypeId) (subject : TypeId) : EvalM TypeId :=
  choose { pattern, yes := infer, no := .never, distributive := true } subject

def restParam (type : TypeId) : Slot := { type, name := some "args", rest := true }

/-- `(...args: args) => result` -/
def restFunction (args result : TypeId) : StoreM TypeId :=
  Store.mkFunction { params := [restParam args], result }

/-- `new (...args: args) => result` -/
def restConstructor (args result : TypeId) : StoreM TypeId :=
  Store.mkConstructor [restParam args] result

def parameters (subject : TypeId) : EvalM TypeId := do
  let p ← Store.mkInfer "P"
  let pattern ← restFunction p .any
  inferred pattern p subject

def constructorParameters (subject : TypeId) : EvalM TypeId := do
  let p ← Store.mkInfer "P"
  let pattern ← restConstructor p .any
  inferred pattern p subject

def returnType (subject : TypeId) : EvalM TypeId := do
  let r ← Store.mkInfer "R"
  let pattern ← restFunction .any r
  inferred pattern r subject

def instanceType (subject : TypeId) : EvalM TypeId := do
  let r ← Store.mkInfer "R"
  let pattern ← restConstructor .any r
  inferred pattern r subject

/-- The receiver that a function asks for, `unknown` if it asks for none. -/
def receiverType (subject : TypeId) : EvalM TypeId := do
  let u ← Store.mkInfer "U"
  let pattern ← Store.mkFunction
    { receiver := some u, params := [restParam .any], result := .any }
  choose { pattern, yes := u, no := .unknown, distributive := true } subject

/-- Whether any receiver will do. -/
def acceptsAnyReceiver (subject : TypeId) : EvalM Bool := do
  let receiver ← receiverType subject
  return (← matches? .unknown receiver).isSome

/-- The signature with its parameters and its result left open. -/
def openSignature : StoreM TypeId := do
  let a ← Store.mkInfer "A"
  let r ← Store.mkInfer "R"
  restFunction a r

/-- The same functions without a receiver; a subject that asks for none stays as it is. -/
def omitReceiver (subject : TypeId) : EvalM TypeId := do
  if ← acceptsAnyReceiver subject then return subject
  let signature ← openSignature
  let self ← Store.mkParam subjectName
  chooseEach signature signature self subject

/-- The subject, if it asks for a receiver, and `unknown` otherwise. -/
def withReceiver (subject : TypeId) : EvalM TypeId := do
  if ← acceptsAnyReceiver subject then return .unknown else return subject

def inferFunction (subject : TypeId) : EvalM TypeId := do
  let signature ← openSignature
  choose { pattern := signature, yes := signature, no := .never, distributive := true } subject

def replaceInfers (bindings : Bindings) (template : TypeId) : StoreM TypeId :=
  (Substitution.ofBindings bindings).applyOnce template

/-- Turns constructors and functions into functions, whose result may also come in one of the given
wrappers. -/
def inferFunctionOrConstructor (wrapped : List Wrapper) (subject : TypeId) : EvalM TypeId := do
  let a ← Store.mkInfer "A"
  let r ← Store.mkInfer "R"
  let wrappedResults ← wrapped.mapM fun kind => Store.mkWrapper kind [r]
  let result ← Store.mkUnion (r :: wrappedResults)
  let template ← restFunction a result
  let constructorPattern ← restConstructor a r
  let functionPattern ← restFunction a r
  Store.distribute subject fun member => do
    match ← matches? member constructorPattern with
    | some bindings => replaceInfers bindings template
    | none => match ← matches? member functionPattern with
      | some bindings => replaceInfers bindings template
      | none => return .never

/-- `(x: t) => any` -/
def accepting (t : TypeId) : StoreM TypeId :=
  Store.mkFunction { params := [{ type := t, name := some "x" }], result := .any }

/-- Each member becomes the parameter of a function; what could be passed to all those functions is
the intersection of the members. -/
def unionToIntersection (subject : TypeId) : EvalM TypeId := do
  if subject = .never then return .unknown
  let functions ← ((← getThe Store).unionMembers subject).mapM fun t => accepting t
  let combined ← Store.mkIntersection functions
  let r ← Store.mkInfer "R"
  let pattern ← accepting r
  choose { pattern, yes := r, no := .never } combined

end TypeCalculus.Evaluator
