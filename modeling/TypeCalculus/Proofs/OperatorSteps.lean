import TypeCalculus.Proofs.EvaluatorSteps
import TypeCalculus.Proofs.Growth

namespace TypeCalculus

variable {d : Discipline}

namespace Evaluator

inductive Work (d : Discipline) : State → State → Prop
  | store {e : Evaluator} {st st' : Store} (h : d.Evolves st st') : Work d (e, st) (e, st')
  | applied {s : State} (operator : Operator) {subject : TypeId}
    (ho : d ≠ .free → s.2.Has operator) (ht : d.Fit s.2 subject) :
    Work d s (Action.run (applyOperator operator subject) s).2

def Works (d : Discipline) : State → State → Prop := Relation.ReflTransGen (Work d)

instance : Evolution (Works d) where
  refl _ := .refl
  trans h h' := h.trans h'

/-- Work of any length keeps to the rules. -/
theorem Works.upholds (hd : d ≠ .solid) {s s' : State} (hs : Ready d.rules s) (h : Works d s s') :
    Upholds d.rules s s' := by
  induction h with
  | refl => exact Evolution.refl s
  | tail _ hw ih =>
    apply Evolution.trans ih
    cases hw with
    | store h => exact .lift h
    | applied operator _ ht =>
      exact (leads_operator (r := d.rules) hd (ih.ready hs) operator ht).1

end Evaluator

def Discipline.operators (d : Discipline) (hd : d ≠ .solid) : OperatorRules where
  toBuildRules := d.rules.toBuildRules
  Usable st operator := d ≠ .free → st.Has operator
  Works := Evaluator.Works d
  Ready := Evaluator.Ready d.rules
  progress := inferInstance
  usable _ h ho hf := h.grown.has (ho hf)
  conditional hg hp hy hn := by
    apply (leads_internConditional fun hf => ⟨hp.valid hf, hy.valid hf, hn.valid hf⟩).mono
    intro _ _ hev h hf
    exact (List.getElem?_eq_some_iff.mp (h ((hev.good hg).indexed hf))).1
  mapping hg hm := by
    apply (leads_internMapping fun hf id h => hm id h hf).mono
    intro _ _ hev h hf
    exact (List.getElem?_eq_some_iff.mp (h ((hev.good hg).indexed hf))).1
  replaced hg hb ht := (Substitution.runs_applyOnce (r := d.rules) (.ofBindings hg hb) ht).leads
  ready hs h := (h.upholds hd hs).ready hs
  sound hs := hs.good
  evolves hs h := (h.upholds hd hs).store
  lift _ h := .single (.store h)
  matched {s _ _} hs ht hp := by
    have h := (runs_matchPattern (r := d.rules.toBuildRules) hs.good ht hp s.1.limits).leads
    exact leads_get (leads_lift (.single (.store h.1)) h.2)
  applied {_ operator _} hs ho ht := ⟨.single (.applied operator ho ht),
    (Evaluator.leads_operator (r := d.rules) hd hs operator ht).2⟩

namespace Evaluator.Call

def Typed : Call → Prop
  | .inferArgument kind position _ => kind.Takes (position + 1)
  | _ => True

structure Accepted (d : Discipline) (call : Call) (st : Store) : Prop where
  operands : ∀ t ∈ call.operands, d.Fit st t
  operator : d ≠ .free → ∀ operator, call.operator? = some operator → st.Has operator
  typed : d = .typed → call.Typed

/-- Whatever is asked of an evaluator comes down to work under the discipline. -/
theorem worked {s : State} (hd : d ≠ .solid) (hs : Ready d.rules s) {call : Call}
    (h : call.Accepted d s.2) : Leads (Works d) call.act s fun a s' => d.Fit s'.2 a := by
  refine call.yields (r := d.operators hd) hs
    ⟨h.operands, fun operator ho hf => h.operator hf operator ho, ?_⟩
  rintro kind position subject rfl ht
  exact h.typed ht

end Evaluator.Call

end TypeCalculus
