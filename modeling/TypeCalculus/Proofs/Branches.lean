import TypeCalculus.Evaluator.Conditional
import TypeCalculus.Proofs.ReplaceRuns

namespace TypeCalculus.Evaluator

variable {r : WalkRules}

def branch (limits : Limits) (c : Conditional) (subject : TypeId) : StoreM TypeId := do
  let found ← matchPattern subject c.pattern limits
  if subject = .any && !c.pattern.isTop then
    let yes ← instantiate c c.yes (found.getD .empty) subject
    let no ← instantiate c c.no .empty subject
    Store.mkUnion [yes, no]
  else match found with
    | some bindings => instantiate c c.yes bindings subject
    | none => instantiate c c.no .empty subject

/-- Choosing a branch is an action on the store alone. -/
theorem run_chooseBranch (c : Conditional) (subject : TypeId) (s : Evaluator × Store) :
    Action.run (chooseBranch c subject) s =
      (((branch s.1.limits c subject).run s.2).1, s.1,
        ((branch s.1.limits c subject).run s.2).2) := by
  have hmatch : Action.run (matches? subject c.pattern) s =
      (((matchPattern subject c.pattern s.1.limits).run s.2).1, s.1,
        ((matchPattern subject c.pattern s.1.limits).run s.2).2) := rfl
  have hstore : Action.run (matchPattern subject c.pattern s.1.limits) s.2 =
      (matchPattern subject c.pattern s.1.limits).run s.2 := rfl
  show _ = ((Action.run (branch s.1.limits c subject) s.2).1, s.1,
    (Action.run (branch s.1.limits c subject) s.2).2)
  unfold chooseBranch branch
  rw [Action.run_bind, Action.run_bind, hmatch, hstore]
  rcases (matchPattern subject c.pattern s.1.limits).run s.2 with ⟨found, st'⟩
  dsimp only
  split
  · rfl
  · cases found <;> rfl

structure Parts (r : WalkRules) (c : Conditional) (st : Store) : Prop where
  pattern : r.Fit st c.pattern
  yes : r.Fit st c.yes
  no : r.Fit st c.no

theorem parts_conditional (hopen : r.Open) {st : Store} (hg : r.Good st) (id : ConditionalId) :
    Parts r (st.conditional id) st :=
  ⟨(r.part id hopen hg).1, (r.part id hopen hg).2.1, (r.part id hopen hg).2.2⟩

section Branch

variable {st : Store} (hg : r.Good st) {c : Conditional} {subject : TypeId} (ht : r.Fit st subject)

include hg ht

theorem runs_instantiate {branch : TypeId} (hb : r.Fit st branch) {bindings : Bindings}
    (hbind : bindings.AreOf r.Fit st) :
    Runs r.Firm r.Evolves (instantiate c branch bindings subject) st fun a st' => r.Fit st' a := by
  have hempty : Bindings.AreOf r.Fit .empty st := fun _ _ h => by cases h
  have hmemo {t a : TypeId} (h : (Dict.empty : Dict TypeId TypeId).get? t = some a) :
      r.Fit st a := by
    cases h
  unfold instantiate
  split
  · exact Substitution.runs_applyOnce ⟨hg, hbind, hempty.insert ht, hmemo⟩ hb
  · exact Substitution.runs_applyOnce ⟨hg, hbind, hempty, hmemo⟩ hb

/-- The answer of the branch that is chosen may be used, and is found again. -/
theorem runs_branch (limits : Limits) (hc : Parts r c st) :
    Runs r.Firm r.Evolves (branch limits c subject) st fun a st' => r.Fit st' a := by
  unfold branch
  apply ((runs_matchPattern hg ht hc.pattern limits).narrow r.firm).bind
  intro found st₁ h₁ hfound
  have hg₁ := r.good h₁ hg
  have ht₁ := r.later hg h₁ ht
  have hyes₁ := r.later hg h₁ hc.yes
  have hno₁ := r.later hg h₁ hc.no
  have hempty (st : Store) : Bindings.AreOf r.Fit .empty st := fun _ _ h => by cases h
  split
  · have hbind : (found.getD .empty).AreOf r.Fit st₁ := by
      cases found with
      | none => exact hempty _
      | some b => exact hfound b rfl
    apply (runs_instantiate hg₁ ht₁ hyes₁ hbind).bind
    intro yes st₂ h₂ hyes
    have hg₂ := r.good h₂ hg₁
    apply (runs_instantiate hg₂ (r.later hg₁ h₂ ht₁) (r.later hg₁ h₂ hno₁) (hempty _)).bind
    intro no st₃ h₃ hno
    refine (r.build (f := .union [yes, no]) (r.good h₃ hg₂) ?_ fun _ => trivial).narrow r.firm
    intro t hm
    rcases List.mem_pair.mp hm with rfl | rfl
    · exact r.later hg₂ h₃ hyes
    · exact hno
  · split
    · rename_i b
      exact runs_instantiate hg₁ ht₁ hyes₁ (hfound b rfl)
    · exact runs_instantiate hg₁ ht₁ hno₁ (hempty _)

end Branch

end TypeCalculus.Evaluator
