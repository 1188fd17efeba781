import TypeCalculus.Matching
import TypeCalculus.Substitution

namespace TypeCalculus

structure Task where
  operator : Operator
  subject : TypeId
deriving DecidableEq, Repr

/-- A running task may have a placeholder, which may have been handed out. -/
inductive Progress
  | running (placeholder : Option TypeId) (referenced : Bool)
  | done (answer : TypeId)
deriving DecidableEq, Repr

/-- Beside its present state an evaluator records over its whole life what was the case every time a
task was asked for (`observed`). -/
structure Evaluator where
  limits : Limits
  guard : Guard Task
  memo : Dict Task Progress := .empty
  observed : Prop := True
deriving Repr

instance : Guarded Evaluator Task := ⟨Evaluator.guard, fun guard s => { s with guard }⟩

abbrev EvalM := StateT Evaluator StoreM

namespace Evaluator

def start (limits : Limits := .evaluation) : Evaluator := { limits, guard := .start limits }

/-- Runs an evaluation on a fresh evaluator. -/
def fresh {α : Type} (action : EvalM α) : StoreM α := do
  let (answer, _) ← action.run start
  return answer

/-- How many answers are remembered. -/
def remembered (e : Evaluator) : Nat :=
  e.memo.entries.countP fun | (_, .done _) => true | (_, .running _ _) => false

def clear (e : Evaluator) : Evaluator := { e with memo := .empty, guard := e.guard.reset }

def note (task : Task) (progress : Progress) : EvalM Unit :=
  modify fun e => { e with memo := e.memo.insert task progress }

/-- Matching under the evaluator's own limits. -/
def matches? (subject pattern : TypeId) : EvalM (Option Bindings) := do
  matchPattern subject pattern (← get).limits

/-- Once nothing is being visited, the next task starts with the full number of visits. -/
def settle : EvalM Unit :=
  modify fun e => if e.guard.depth = 0 then { e with guard := e.guard.reset } else e

def Running (e : Evaluator) (task : Task) : Prop := ∃ p r, e.memo.get? task = some (.running p r)

/-- The memo and the guard agree when a task is asked for: the tasks that run are those being
visited, and neither answers for want of anything better. While nothing is being visited, the guard
is as good as new. -/
structure InStep (e : Evaluator) (task : Task) : Prop where
  visiting (other : Task) : other ∈ e.guard.visiting ↔ e.Running other
  placeholder (referenced : Bool) : e.memo.get? task ≠ some (.running none referenced)
  admission : e.memo.get? task = none → (e.guard.enter task).1 ≠ .cycle
  fresh : e.guard.visiting = [] →
    e.guard.depth = 0 ∧ e.guard.iterations = 0 ∧ e.guard.exceeded = false

def observe (task : Task) : EvalM Unit :=
  modify fun e => { e with observed := e.observed ∧ e.InStep task }

/-- Looks an answer up or works it out. A task that is met again while it runs answers with its
placeholder. -/
def retrieve (task : Task) (compute : EvalM TypeId) : EvalM TypeId := do
  match (← get).memo.get? task with
  | some (.done answer) => return answer
  | some (.running none _) => return .never
  | some (.running (some placeholder) _) =>
    note task (.running (some placeholder) true)
    return placeholder
  | none =>
    let outcome ← visit task none none do
      note task (.running none false)
      return some (← compute)
    match outcome with
    | none => return .never
    | some answer =>
      settle
      note task (.done answer)
      return answer

/-- Works an answer out once. -/
def memoized (task : Task) (compute : EvalM TypeId) : EvalM TypeId := do
  observe task
  retrieve task compute

/-- Reserves the placeholder of a running task. -/
def openFixedPoint (task : Task) : EvalM Unit := do
  note task (.running (some (← Store.reserve)) false)

/-- If the placeholder was handed out, it becomes the answer. -/
def closeFixedPoint (task : Task) (answer : TypeId) : EvalM TypeId := do
  match (← get).memo.get? task, (← getThe Store).lookup answer with
  | some (.running (some placeholder) true), some body =>
    match ← Store.define placeholder body with
    | .ok () => return placeholder
    | .error _ => return answer
  | _, _ => return answer

end Evaluator

end TypeCalculus
