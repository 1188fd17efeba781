import TypeCalculus.Intrinsic

namespace TypeCalculus

abbrev ConditionalId := Nat
abbrev MappingId := Nat

/-- `subject extends pattern ? yes : no`, with the subject also bound to a parameter when there is
one. A distributive conditional is applied to each member of a union subject. -/
structure Conditional where
  param : Option String := none
  pattern : TypeId
  yes : TypeId
  no : TypeId
  distributive : Bool := false
deriving DecidableEq, Repr

inductive Modifier
  | add | remove
deriving DecidableEq, Repr

/-- Without a modifier a flag stays as it is. -/
def Modifier.apply : Option Modifier → Bool → Bool
  | some .add, _ => true
  | some .remove, _ => false
  | none, flag => flag

inductive KeyFilter
  | all
  | only (names : List String)
  | without (names : List String)
deriving DecidableEq, Repr

namespace KeyFilter

def accepts : KeyFilter → String → Bool
  | .all, _ => true
  | .only names, name => name ∈ names
  | .without names, name => name ∉ names

/-- An index signature stands for every name that is not listed, so a list of wanted names drops
it. -/
def keepsIndex : KeyFilter → Bool
  | .only _ => false
  | _ => true

end KeyFilter

/-- What becomes of the values under a mapping: kept, sent through a conditional, or mapped the same
way all the way down. -/
inductive ValueRule
  | keep
  | conditional (id : ConditionalId)
  | deep
deriving DecidableEq, Repr

structure Mapping where
  keys : KeyFilter := .all
  value : ValueRule := .keep
  optional : Option Modifier := none
  readonly : Option Modifier := none
deriving DecidableEq, Repr

inductive Operator
  | conditional (id : ConditionalId)
  | mapping (id : MappingId)
deriving DecidableEq, Repr

end TypeCalculus
