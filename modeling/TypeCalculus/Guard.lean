namespace TypeCalculus

structure Limits where
  depth : Nat
  iterations : Nat
deriving DecidableEq, Repr

namespace Limits

def matching : Limits := ⟨100, 100000⟩
def evaluation : Limits := ⟨100, 100000⟩
def substitution : Limits := ⟨100, 100000⟩
def rendering : Limits := ⟨32, 10000⟩

end Limits

inductive Admission
  | entered | cycle | depthExceeded | iterationExceeded
deriving DecidableEq, Repr

namespace Admission

def isEntered (a : Admission) : Bool := a = .entered
def isCycle (a : Admission) : Bool := a = .cycle
def isExceeded (a : Admission) : Bool := a = .depthExceeded || a = .iterationExceeded

end Admission

inductive GuardFault
  | notVisiting
  | stillActive (count : Nat)
deriving DecidableEq, Repr

def GuardFault.message : GuardFault → String
  | .notVisiting => "RecursionGuard::leave() called with a key that is not being visited"
  | .stillActive count =>
    "RecursionGuard dropped with " ++ toString count ++ " active entries; enter() without leave()"

/-- The most recent key comes first. Beside its present state a guard records over its whole life
whether it ever refused a visit at a limit (`overrun`), and whether a key was ever left that was not
being visited (`misused`). -/
structure Guard (κ : Type) where
  limits : Limits
  visiting : List κ := []
  depth : Nat := 0
  iterations : Nat := 0
  exceeded : Bool := false
  overrun : Bool := false
  misused : Bool := false
deriving DecidableEq, Repr

namespace Guard

variable {κ : Type} [DecidableEq κ]

/-- Visits are counted up to this number and no further. -/
def countLimit : Nat := 0xffffffff

def start (limits : Limits) : Guard κ := { limits }

def isVisiting (g : Guard κ) (key : κ) : Bool := key ∈ g.visiting

/-- Asks for a visit. Of several reasons to refuse it, the count of visits comes first. -/
def enter (g : Guard κ) (key : κ) : Admission × Guard κ :=
  let g := { g with iterations := min (g.iterations + 1) countLimit }
  if g.limits.iterations < g.iterations then
    (.iterationExceeded, { g with exceeded := true, overrun := true })
  else if g.limits.depth ≤ g.depth then
    (.depthExceeded, { g with exceeded := true, overrun := true })
  else if g.isVisiting key then (.cycle, g)
  else (.entered, { g with visiting := key :: g.visiting, depth := g.depth + 1 })

/-- Ends a visit. The keys may be left in any order. One that is not being visited lowers the depth
all the same. -/
def leave (g : Guard κ) (key : κ) : Guard κ :=
  { g with visiting := g.visiting.erase key, depth := g.depth - 1,
           misused := g.misused || !g.isVisiting key }

def leave? (g : Guard κ) (key : κ) : Except GuardFault (Guard κ) :=
  if g.isVisiting key then .ok (g.leave key) else .error .notVisiting

/-- Forgets all visits, but not the record of the guard's life. -/
def reset (g : Guard κ) : Guard κ :=
  { g with visiting := [], depth := 0, iterations := 0, exceeded := false }

/-- A guard is given up when nothing is being visited. -/
def close? (g : Guard κ) : Except GuardFault Unit :=
  if g.visiting.isEmpty then .ok () else .error (.stillActive g.visiting.length)

end Guard

end TypeCalculus
