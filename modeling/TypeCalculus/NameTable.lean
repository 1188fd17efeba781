import TypeCalculus.Dict

namespace TypeCalculus

abbrev Atom := UInt32

/-- The number of each name, and the names by place. -/
structure Shard where
  slots : Dict String Atom := {}
  names : List String := []
deriving DecidableEq, Repr

/-- Names are spread over the shards by a hash. -/
structure NameTable where
  shards : Vector Shard 16
deriving DecidableEq, Repr

inductive NameFault
  | full (shard : Fin 16)
deriving DecidableEq, Repr

def NameFault.message : NameFault → String
  | .full shard => "interner shard " ++ toString shard.val ++ " is full"

namespace NameTable

def emptyName : Atom := 0

/-- The last place that a shard has: 28 bits of an atom are left for it. -/
def lastPlace : Nat := 0xfffffff

/-- The place stands above the four bits of the shard. -/
def pack (shard : Fin 16) (place : Nat) : Atom := place.toUInt32 <<< 4 ||| shard.val.toUInt32

def shardOf (atom : Atom) : Fin 16 := Fin.ofNat 16 (atom &&& 15).toNat

def placeOf (atom : Atom) : Nat := (atom >>> 4).toNat

def names (table : NameTable) (shard : Fin 16) : List String := table.shards[shard].names

def slots (table : NameTable) (shard : Fin 16) : Dict String Atom := table.shards[shard].slots

def add (table : NameTable) (shard : Fin 16) (name : String) : NameTable :=
  let held := table.names shard
  let numbered := (table.slots shard).insert name (pack shard held.length)
  ⟨table.shards.set shard { slots := numbered, names := held ++ [name] }⟩

/-- The empty name has number zero from the start. -/
def empty : NameTable := add ⟨Vector.replicate 16 {}⟩ (shardOf emptyName) ""

/-- The number of a name, which is added to the shard that `hash` gives it if it is new. -/
def intern (hash : String → Fin 16) (table : NameTable) (name : String) :
    Except NameFault (Atom × NameTable) :=
  if name = "" then .ok (emptyName, table)
  else
    let shard := hash name
    match (table.slots shard).get? name with
    | some atom => .ok (atom, table)
    | none =>
      let place := (table.names shard).length
      if place ≤ lastPlace then .ok (pack shard place, table.add shard name)
      else .error (.full shard)

/-- The numbers of several names, one after the other. -/
def internAll (hash : String → Fin 16) (table : NameTable) :
    List String → Except NameFault (List Atom × NameTable)
  | [] => .ok ([], table)
  | name :: rest => do
    let (atom, table) ← table.intern hash name
    let (atoms, table) ← internAll hash table rest
    return (atom :: atoms, table)

def resolve? (table : NameTable) (atom : Atom) : Option String :=
  (table.names (shardOf atom))[placeOf atom]?

def resolve (table : NameTable) (atom : Atom) : String := (table.resolve? atom).getD ""

def size (table : NameTable) : Nat := (table.shards.toList.flatMap Shard.names).length

/-- Nothing but the empty name. -/
def isEmpty (table : NameTable) : Bool := table.size ≤ 1

def commonNames : List String :=
  ["T", "U", "K", "P", "R", "A", "args", "this", "value", "key", "id", "name", "length"]

def internCommon (hash : String → Fin 16) (table : NameTable) : Except NameFault NameTable :=
  return (← table.internAll hash commonNames).2

/-- Spreads names by the sum of their characters. -/
def charSum (name : String) : Fin 16 :=
  Fin.ofNat 16 (name.toList.foldl (fun n c => n + c.toNat) 0)

end NameTable

end TypeCalculus
