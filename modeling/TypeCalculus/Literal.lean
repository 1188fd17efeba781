import TypeCalculus.Binary64.Decimal
import TypeCalculus.Intrinsic

namespace TypeCalculus

inductive Literal
  | string (text : String)
  | number (value : Binary64)
  | boolean (value : Bool)
  | bigint (digits : String)
deriving DecidableEq, Repr

namespace Literal

def primitive : Literal → TypeId
  | .string _ => .string
  | .number _ => .number
  | .boolean _ => .boolean
  | .bigint _ => .bigint

/-- The written form. Text stands between quotes as it is, without escapes. -/
def render : Literal → String
  | .string text => "\"" ++ text ++ "\""
  | .number value => value.text
  | .boolean value => if value then "true" else "false"
  | .bigint digits => digits ++ "n"

/-- The position in a tuple that a literal key names: a whole number, or text that reads as one. -/
def position? : Literal → Option Nat
  | .number value => value.toNat?
  | .string text => (Decimal.read? text).bind (·.round.toNat?)
  | _ => none

end Literal

end TypeCalculus
