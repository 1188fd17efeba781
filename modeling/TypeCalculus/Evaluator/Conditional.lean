import TypeCalculus.Evaluator.Basic

namespace TypeCalculus.Evaluator

/-- A branch with its variables replaced. -/
def instantiate (conditional : Conditional) (branch : TypeId) (bindings : Bindings)
    (subject : TypeId) : StoreM TypeId :=
  let s := Substitution.ofBindings bindings
  match conditional.param with
  | some name => (s.bindParam name subject).applyOnce branch
  | none => s.applyOnce branch

/-- An `any` subject takes both branches, unless the pattern accepts everything. -/
def chooseBranch (conditional : Conditional) (subject : TypeId) : EvalM TypeId := do
  let found ← matches? subject conditional.pattern
  if subject = .any && !conditional.pattern.isTop then
    let yes ← instantiate conditional conditional.yes (found.getD .empty) subject
    let no ← instantiate conditional conditional.no .empty subject
    Store.mkUnion [yes, no]
  else match found with
    | some bindings => instantiate conditional conditional.yes bindings subject
    | none => instantiate conditional conditional.no .empty subject

def conditionalMember (id : ConditionalId) (subject : TypeId) : EvalM TypeId := do
  let conditional := (← getThe Store).conditional id
  memoized ⟨.conditional id, subject⟩ (chooseBranch conditional subject)

def applyConditional (id : ConditionalId) (subject : TypeId) : EvalM TypeId := do
  if ((← getThe Store).conditional id).distributive then
    Store.distribute subject (conditionalMember id)
  else conditionalMember id subject

/-- Interns a conditional and applies it. -/
def choose (conditional : Conditional) (subject : TypeId) : EvalM TypeId := do
  let id ← Store.internConditional conditional
  applyConditional id subject

end TypeCalculus.Evaluator
