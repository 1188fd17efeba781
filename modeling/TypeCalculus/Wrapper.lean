namespace TypeCalculus

inductive Wrapper
  | promise | iterable | iterator | generator | asyncIterable | asyncIterator | asyncGenerator
deriving DecidableEq, Repr

namespace Wrapper

def all : List Wrapper :=
  [.promise, .iterable, .iterator, .generator, .asyncIterable, .asyncIterator, .asyncGenerator]

def name : Wrapper → String
  | .promise => "Promise"
  | .iterable => "Iterable"
  | .iterator => "Iterator"
  | .generator => "Generator"
  | .asyncIterable => "AsyncIterable"
  | .asyncIterator => "AsyncIterator"
  | .asyncGenerator => "AsyncGenerator"

def ofName? (name : String) : Option Wrapper := all.find? (·.name = name)

def minArgs (_ : Wrapper) : Nat := 1

/-- Iterators and generators also take what they return and what they are sent. -/
def maxArgs : Wrapper → Nat
  | .promise | .iterable | .asyncIterable => 1
  | .iterator | .generator | .asyncIterator | .asyncGenerator => 3

/-- A generator can stand where an iterator or an iterable of its flavour is expected. -/
def provides : Wrapper → Wrapper → Bool
  | .generator, .iterator | .generator, .iterable => true
  | .asyncGenerator, .asyncIterator | .asyncGenerator, .asyncIterable => true
  | kind, target => kind = target

end Wrapper

end TypeCalculus
