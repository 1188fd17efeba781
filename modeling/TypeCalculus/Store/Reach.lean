import TypeCalculus.Store.Basic

namespace TypeCalculus

namespace Store

/-- The types that a node mentions, in the order in which they are written. -/
def children (st : Store) : Node → List TypeId
  | .intrinsic _ | .literal _ | .infer _ | .param _ => []
  | .union members | .intersection members | .wrapper _ members => st.list members
  | .object id =>
    let shape := st.shape id
    shape.fields.map Field.type ++ shape.index.toList.map IndexSignature.type
  | .array element => [element]
  | .tuple id => (st.slots id).map Slot.type
  | .function id | .constructor id =>
    let signature := st.signature id
    signature.receiver.toList ++ signature.params.map Slot.type ++ [signature.result]

/-- The types that a type mentions. -/
def mentions (st : Store) (t : TypeId) : List TypeId :=
  match st.lookup t with
  | some node => st.children node
  | none => []

/-- Types worth following: those of the user that have a body. -/
def isOpen (st : Store) (found : List TypeId) (t : TypeId) : Bool :=
  !t.isIntrinsic && (st.lookup t).isSome && t ∉ found

/-- Finds the types that can be reached from those that are waiting, in order of discovery. How the
mentioned types join the waiting ones decides between depth first and breadth first. -/
def discover (st : Store) (enqueue : List TypeId → List TypeId → List TypeId) :
    Nat → List TypeId → List TypeId → List TypeId
  | 0, _, _ => []
  | room + 1, waiting, found =>
    match waiting.dropWhile (fun t => !st.isOpen found t) with
    | [] => []
    | t :: rest => t :: discover st enqueue room (enqueue (st.mentions t) rest) (t :: found)

/-- The types that a type reaches, itself included, depth first and the last mentioned first. Only
types that are not intrinsic and have a body count. -/
def reachable (st : Store) (t : TypeId) : List TypeId :=
  st.discover (fun mentioned rest => mentioned.reverse ++ rest) st.size [t] []

/-- All types below a type, itself included, breadth first. Here types without a body count too. -/
def breadthFirst (st : Store) (t : TypeId) : List TypeId :=
  let visited := st.discover (fun mentioned rest => rest ++ mentioned) st.size [t] []
  ((t :: visited.flatMap st.mentions).filter (!·.isIntrinsic)).eraseDups

/-- Some reachable type satisfies a test on its node. -/
def reaches (st : Store) (test : Node → Bool) (t : TypeId) : Bool :=
  (st.reachable t).any fun u => (st.lookup u).any test

def containsInfer (st : Store) (t : TypeId) : Bool :=
  st.reaches (fun | .infer _ => true | _ => false) t

def containsVariables (st : Store) (t : TypeId) : Bool :=
  st.reaches (fun | .infer _ | .param _ => true | _ => false) t

/-- Whether a type mentions something that a substitution for these parameters would change. -/
def containsBound (st : Store) (isBound : String → Bool) (t : TypeId) : Bool :=
  st.reaches (fun | .infer _ => true | .param name => isBound name | _ => false) t

/-- The names of the reachable infer variables, each once, in order of discovery. -/
def inferVariables (st : Store) (t : TypeId) : List String :=
  ((st.reachable t).filterMap fun u =>
    match st.lookup u with
    | some (.infer name) => some name
    | _ => none).eraseDups

end Store

end TypeCalculus
