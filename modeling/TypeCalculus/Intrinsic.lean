namespace TypeCalculus

/-- A type is named by its place in a store. -/
abbrev TypeId := Nat

inductive Intrinsic
  | any | unknown | never | void | undefined | null
  | boolean | number | string | bigint | symbol | object
deriving DecidableEq, Repr

namespace TypeId

abbrev any : TypeId := 0
abbrev unknown : TypeId := 1
abbrev never : TypeId := 2
abbrev void : TypeId := 3
abbrev undefined : TypeId := 4
abbrev null : TypeId := 5
abbrev boolean : TypeId := 6
abbrev number : TypeId := 7
abbrev string : TypeId := 8
abbrev bigint : TypeId := 9
abbrev symbol : TypeId := 10
abbrev object : TypeId := 11

def isIntrinsic (t : TypeId) : Bool := t < 12

/-- The two types that accept everything. -/
def isTop (t : TypeId) : Bool := t = any || t = unknown

end TypeId

namespace Intrinsic

/-- All intrinsic types, in the order of their places. -/
def all : List Intrinsic :=
  [.any, .unknown, .never, .void, .undefined, .null,
   .boolean, .number, .string, .bigint, .symbol, .object]

def id : Intrinsic → TypeId
  | .any => .any
  | .unknown => .unknown
  | .never => .never
  | .void => .void
  | .undefined => .undefined
  | .null => .null
  | .boolean => .boolean
  | .number => .number
  | .string => .string
  | .bigint => .bigint
  | .symbol => .symbol
  | .object => .object

def name : Intrinsic → String
  | .any => "any"
  | .unknown => "unknown"
  | .never => "never"
  | .void => "void"
  | .undefined => "undefined"
  | .null => "null"
  | .boolean => "boolean"
  | .number => "number"
  | .string => "string"
  | .bigint => "bigint"
  | .symbol => "symbol"
  | .object => "object"

def ofId? (t : TypeId) : Option Intrinsic := all[t]?

def ofName? (name : String) : Option Intrinsic := all.find? (·.name = name)

theorem ofId?_id (kind : Intrinsic) : ofId? kind.id = some kind := by cases kind <;> rfl

theorem ofId?_eq_some {t : TypeId} {kind : Intrinsic} : ofId? t = some kind ↔ t = kind.id := by
  constructor
  · intro h
    have hbound : t < all.length := (List.getElem?_eq_some_iff.mp h).1
    exact (List.getElem?_inj hbound (by decide)).mp (h.trans (ofId?_id kind).symm)
  · rintro rfl
    exact ofId?_id kind

end Intrinsic

end TypeCalculus
