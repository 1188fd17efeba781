import TypeCalculus.Guard

namespace TypeCalculus

/-- Runs a step `room` levels above the last one. Below the last level `stop` answers. -/
def descend {α β : Type} (step : (α → β) → α → β) (stop : α → β) : Nat → α → β
  | 0, a => step stop a
  | room + 1, a => step (descend step stop room) a

/-- What every level does, if the step passes it on from the level below. -/
theorem descend_induction {α β : Type} {step : (α → β) → α → β} {stop : α → β}
    {motive : (α → β) → Prop} (base : motive stop) (pass : ∀ f, motive f → motive (step f)) :
    ∀ room, motive (descend step stop room)
  | 0 => pass stop base
  | room + 1 => pass _ (descend_induction base pass room)

/-- States that carry a guard. -/
class Guarded (σ : Type) (κ : outParam Type) where
  guard : σ → Guard κ
  setGuard : Guard κ → σ → σ

instance (κ : Type) : Guarded (Guard κ) κ := ⟨id, fun g _ => g⟩

/-- Runs `body` as a visit to `key`. A visit that is already under way answers `cycle`, a refused
one `limit`. -/
def visit {σ κ α : Type} {m : Type → Type} [Monad m] [DecidableEq κ] [Guarded σ κ] (key : κ)
    (cycle limit : α) (body : StateT σ m α) : StateT σ m α := do
  let (admission, guard) := (Guarded.guard (← get)).enter key
  modify (Guarded.setGuard guard)
  match admission with
  | .entered =>
    let answer ← body
    modify fun s => Guarded.setGuard ((Guarded.guard s).leave key) s
    return answer
  | .cycle => return cycle
  | .depthExceeded | .iterationExceeded => return limit

end TypeCalculus
