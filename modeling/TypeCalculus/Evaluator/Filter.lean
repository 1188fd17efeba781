import TypeCalculus.Evaluator.Conditional

namespace TypeCalculus.Evaluator

/-- The name under which branches refer to the subject. -/
def subjectName : String := "T"

/-- A distributive conditional whose branches may refer to the subject. -/
def chooseEach (pattern yes no : TypeId) (subject : TypeId) : EvalM TypeId :=
  choose { param := some subjectName, pattern, yes, no, distributive := true } subject

/-- The members that cannot be assigned to `excluded`. -/
def exclude (subject excluded : TypeId) : EvalM TypeId := do
  let self ← Store.mkParam subjectName
  chooseEach excluded .never self subject

/-- The members that can be assigned to `extracted`. -/
def extract (subject extracted : TypeId) : EvalM TypeId := do
  let self ← Store.mkParam subjectName
  chooseEach extracted self .never subject

def nonNullable (subject : TypeId) : EvalM TypeId := do
  let nullish ← Store.mkUnion [.null, .undefined]
  exclude subject nullish

end TypeCalculus.Evaluator
