import TypeCalculus.Proofs.Quiescence
import TypeCalculus.Render

namespace TypeCalculus

namespace Guard

variable {κ : Type}

instance : Evolution (Kept : Guard κ → Guard κ → Prop) where
  refl := Kept.refl
  trans := Kept.trans

/-- No key was ever left that was not being visited, and the guard may be given up. -/
def Faultless (g : Guard κ) : Prop := g.misused = false ∧ g.close? = .ok ()

theorem faultless_start (limits : Limits) : (start limits : Guard κ).Faultless := ⟨rfl, rfl⟩

theorem Kept.faultless {g g' : Guard κ} (h : g.Kept g') (hg : g.Faultless) : g'.Faultless := by
  refine ⟨h.misused.trans hg.1, ?_⟩
  rw [close?, h.visiting]
  exact hg.2

theorem Faultless.reset {g : Guard κ} (hg : g.Faultless) : g.reset.Faultless := ⟨hg.1, rfl⟩

end Guard

instance : Action RenderM (Guard TypeId) where
  run act g := act g
  run_pure _ _ := rfl
  run_bind _ _ _ := rfl

namespace Store

def Returns {α : Type} (act : RenderM α) : Prop := ∀ g, Leads Guard.Kept act g fun _ _ => True

theorem returns_pure {α : Type} (a : α) : Returns (pure a) := fun _ => Leads.pure trivial

theorem Returns.bind {α β : Type} {x : RenderM α} {f : α → RenderM β} (hx : Returns x)
    (hf : ∀ a, Returns (f a)) : Returns (x >>= f) :=
  fun g => (hx g).bind fun a g' _ _ => hf a g'

theorem Returns.mapM {α β : Type} {f : α → RenderM β} (hf : ∀ a, Returns (f a)) (xs : List α) :
    Returns (xs.mapM f) := by
  induction xs with
  | nil => exact returns_pure []
  | cons x xs ih =>
    rw [List.mapM_cons]
    exact (hf x).bind fun y => ih.bind fun ys => returns_pure (y :: ys)

/-- A visit, as it goes on after its guard has answered. -/
theorem run_visited {α : Type} (key : TypeId) (cycle limit : α) (body : RenderM α)
    (g : Guard TypeId) :
    Action.run (visit key cycle limit body) g = match (g.enter key).1 with
      | .entered =>
          ((Action.run body (g.enter key).2).1, (Action.run body (g.enter key).2).2.leave key)
      | .cycle => (cycle, (g.enter key).2)
      | .depthExceeded | .iterationExceeded => (limit, (g.enter key).2) := by
  have hpure {β : Type} (b : β) : (pure b : Id β) = b := rfl
  unfold visit
  simp only [Action.run, bind, StateT.bind, get, getThe, MonadStateOf.get, StateT.get,
    modify, modifyGet, MonadStateOf.modifyGet, StateT.modifyGet, hpure, Guarded.guard,
    Guarded.setGuard, id]
  cases (g.enter key).1 <;> rfl

/-- A visit enters and leaves in pairs, on every way out. -/
theorem returns_visit {α : Type} {key : TypeId} {cycle limit : α} {body : RenderM α}
    (hbody : Returns body) : Returns (visit key cycle limit body) := by
  intro g
  unfold Leads
  rw [run_visited]
  rcases g.enter_cases key with ⟨he, hi⟩ | ⟨he, _, _, hk⟩ | ⟨he | he, _, hk⟩
  · simp only [he]
    exact ⟨hi.leave (hbody _).1, trivial⟩
  all_goals
    simp only [he]
    exact ⟨hk, trivial⟩

section Step

variable {write : TypeId → RenderM String} (hwrite : ∀ t, Returns (write t))

include hwrite

theorem returns_bracketed (brackets : Bool) (t : TypeId) : Returns (bracketed write brackets t) :=
  (hwrite t).bind fun _ => returns_pure _

theorem returns_writeMembers (st : Store) (separator : String) (members : List TypeId) :
    Returns (writeMembers st write separator members) :=
  (Returns.mapM (fun _ => returns_bracketed hwrite _ _) members).bind fun _ => returns_pure _

theorem returns_writeElement (slot : Slot) : Returns (writeElement write slot) :=
  (hwrite slot.type).bind fun _ => returns_pure _

theorem returns_writeSignature (signature : Signature) :
    Returns (writeSignature write signature) := by
  have hreceiver : Returns (writeReceiver write signature.receiver) := by
    cases signature.receiver with
    | none => exact returns_pure []
    | some t => exact (hwrite t).bind fun _ => returns_pure _
  refine hreceiver.bind fun _ =>
    (Returns.mapM (fun param => ?_) signature.params.zipIdx).bind fun _ =>
    (hwrite signature.result).bind fun _ => returns_pure _
  exact (hwrite param.1.type).bind fun _ => returns_pure _

theorem returns_writeShape (shape : Shape) : Returns (writeShape write shape) := by
  have hindex : Returns (writeIndex write shape.index) := by
    cases shape.index with
    | none => exact returns_pure []
    | some index => exact (hwrite index.type).bind fun _ => returns_pure _
  have hfields := Returns.mapM (f := writeField write)
    (fun field => (hwrite field.type).bind fun _ => returns_pure _) shape.fields
  refine hindex.bind fun index => hfields.bind fun fields => ?_
  split
  · exact returns_pure _
  · exact returns_pure _

/-- Every clause of the rendering gives the guard back. -/
theorem returns_writeNode (st : Store) (t : TypeId) : Returns (writeNode st write t) := by
  unfold writeNode
  split
  · exact returns_pure _
  · exact returns_pure _
  · exact returns_pure _
  · exact returns_writeMembers hwrite st _ _
  · exact returns_writeMembers hwrite st _ _
  · exact returns_writeShape hwrite _
  · exact (returns_bracketed hwrite _ _).bind fun _ => returns_pure _
  · exact (Returns.mapM (returns_writeElement hwrite) _).bind fun _ => returns_pure _
  · exact returns_writeSignature hwrite _
  · exact (returns_writeSignature hwrite _).bind fun _ => returns_pure _
  · exact (Returns.mapM hwrite _).bind fun _ => returns_pure _
  · exact returns_pure _
  · exact returns_pure _

end Step

/-- Rendering gives the guard back, however deep it may go. -/
theorem returns_render (st : Store) (room : Nat) (t : TypeId) :
    Returns (descend st.renderStep (fun _ => return "...") room t) := by
  refine descend_induction (motive := fun f => ∀ t, Returns (f t)) ?_ ?_ room t
  · exact fun _ => returns_pure _
  · exact fun f hf t => returns_visit (returns_writeNode hf st t)

end Store

/-- How a substitution with its store can have come about: it is given bindings and applied, and in
between the store may become any other. -/
inductive Substitution.Lived : State → Prop
  | start (limits : Limits) (st : Store) : Lived (start limits, st)
  | ofBindings (bindings : Bindings) (st : Store) : Lived (ofBindings bindings, st)
  | store {s : State} (st : Store) (h : Lived s) : Lived (s.1, st)
  | bindInfer {s : State} (name : String) (t : TypeId) (h : Lived s) :
      Lived (s.1.bindInfer name t, s.2)
  | bindParam {s : State} (name : String) (t : TypeId) (h : Lived s) :
      Lived (s.1.bindParam name t, s.2)
  | apply {s : State} (t : TypeId) (h : Lived s) : Lived (Action.run (apply t) s).2

section Kept

open Discipline (good_free fit_free)

theorem Matcher.kept_descend (room : Nat) (goal : Goal) (s : State) : s.1.guard.Kept
    (Action.run (descend step (fun _ => return false) room goal) s).2.1.guard := by
  have hs : Ready (Discipline.rules .free).toBuildRules s :=
    ⟨good_free s.2, fun _ _ _ => fit_free ..⟩
  exact (runs_descend room goal hs (fit_free ..) (fit_free ..)).leads.1.guard

theorem Substitution.kept_descend (room : Nat) (t : TypeId) (s : State) : s.1.guard.Kept
    (Action.run (descend step (fun _ => return .never) room t) s).2.1.guard := by
  have hs : Ready (Discipline.rules .free) s :=
    ⟨good_free s.2, (fun _ _ _ => fit_free ..), (fun _ _ _ => fit_free ..), fun _ => fit_free ..⟩
  exact (runs_descend room hs (fit_free s.2 t)).leads.1.guard

/-- No substitution has ever left a key that it was not visiting. -/
theorem Substitution.Lived.faultless {s : State} (h : Lived s) : s.1.guard.Faultless := by
  induction h with
  | start limits => exact Guard.faultless_start limits
  | ofBindings => exact Guard.faultless_start _
  | store _ _ ih => exact ih
  | bindInfer _ _ _ ih => exact ih
  | bindParam _ _ _ ih => exact ih
  | @apply s t _ ih => exact (kept_descend s.1.guard.limits.depth t s).faultless ih

namespace Evaluator

variable {s : State}

theorem kept_descend (hd : s.1.guard.depth = s.1.guard.visiting.length) (id : MappingId)
    (room : Nat) (n : TypeId) : s.1.guard.Kept
      (Action.run (descend (mapMember id) (fun _ => return .never) room n) s).2.1.guard :=
  (leads_descend (r := Discipline.rules .free) (fun h => by cases h) (ready_free s) id room
    (fit_free s.2 n)).1.returns hd

/-- An evaluator gives its guard back from every call. -/
theorem kept_call (hd : s.1.guard.depth = s.1.guard.visiting.length) (call : Call) :
    s.1.guard.Kept (Action.run call.act s).2.1.guard := by
  have hfree : Discipline.free ≠ .solid := fun h => by cases h
  have hc : call.Accepted .free s.2 :=
    ⟨fun t _ => fit_free s.2 t, fun h => absurd rfl h, fun h => by cases h⟩
  exact ((call.worked hfree (ready_free s) hc).1.upholds hfree (ready_free s)).returns hd

theorem Employed.faultless {limits : Limits} (h : Employed limits s) : s.1.guard.Faultless := by
  induction h with
  | start st => exact Guard.faultless_start limits
  | store _ _ ih => exact ih
  | call call h ih => exact (kept_call h.resting.1.depth call).faultless ih
  | clear _ ih => exact ih.reset

end Evaluator

end Kept

/-- However deep a walk may go, and whatever state it begins in, it returns the guard that it was
given; an evaluator's guard has to count its keys rightly, as those of all evaluators do. Over whole
lives, under any limits and with any changes of the store between two calls, no guard is ever
misused. -/
theorem walks_return_guards :
    (∀ (room : Nat) (goal : Goal) (s : Matcher.State), s.1.guard.Kept
      (Action.run (descend Matcher.step (fun _ => return false) room goal) s).2.1.guard) ∧
    (∀ (room : Nat) (t : TypeId) (s : Substitution.State), s.1.guard.Kept
      (Action.run (descend Substitution.step (fun _ => return .never) room t) s).2.1.guard) ∧
    (∀ (st : Store) (room : Nat) (t : TypeId) (g : Guard TypeId),
      g.Kept ((descend st.renderStep (fun _ => return "...") room t).run g).2) ∧
    (∀ s : Evaluator.State, s.1.guard.depth = s.1.guard.visiting.length →
      (∀ call : Evaluator.Call, s.1.guard.Kept (Action.run call.act s).2.1.guard) ∧
      ∀ (id : MappingId) (room : Nat) (n : TypeId), s.1.guard.Kept
        (Action.run (descend (Evaluator.mapMember id) (fun _ => return .never) room n)
          s).2.1.guard) ∧
    (∀ (limits : Limits) (subject pattern : TypeId) (st : Store),
      ((Matcher.run limits subject pattern).run st).1.2.guard.Faultless) ∧
    (∀ s : Substitution.State, Substitution.Lived s → s.1.guard.Faultless) ∧
    (∀ (st : Store) (t : TypeId), (st.runRender t).2.Faultless) ∧
    ∀ (limits : Limits) (s : Evaluator.State), Evaluator.Employed limits s →
    s.1.guard.Faultless := by
  refine ⟨Matcher.kept_descend, Substitution.kept_descend, fun st room t g =>
    (st.returns_render room t g).1, fun s hd => ⟨Evaluator.kept_call hd, Evaluator.kept_descend hd⟩,
    fun limits subject pattern st => ?_, fun s h => h.faultless, fun st t => ?_, fun limits s h =>
    h.faultless⟩
  · exact (Matcher.kept_descend limits.depth ⟨subject, pattern, .covariant⟩
      (Matcher.start limits, st)).faultless (Guard.faultless_start limits)
  · exact (st.returns_render _ t _).1.faultless (Guard.faultless_start .rendering)

def looped : Store := ((Store.mkArray 12).run .initial).2

def loopedRefused : Evaluator.State :=
  (Action.run (Evaluator.Call.mapWith { value := .deep } 12).act (Evaluator.start ⟨0, 0⟩, looped)).2

def loopedRebuilt : Substitution.State :=
  (Action.run (Substitution.apply 14) (Substitution.start ⟨1, 9⟩,
    ((do let v ← Store.mkInfer "T"; Store.mkTuple [{ type := 12 }, { type := v }]).run looped).2)).2

theorem walks_return_guards_looped :
    (loopedRefused.1.guard.depth = loopedRefused.1.guard.visiting.length ∧
      Evaluator.Employed ⟨0, 0⟩ loopedRefused ∧ loopedRefused.1.guard.overrun = true ∧
      loopedRefused.1.guard.Faultless ∧ loopedRefused.1.guard.Kept
        (Action.run (Evaluator.Call.keyof 12).act loopedRefused).2.1.guard) ∧
    Substitution.Lived loopedRebuilt ∧ loopedRebuilt.1.guard.overrun = true ∧
      loopedRebuilt.1.guard.Faultless := by
  obtain ⟨_, _, _, hcall, _, hsubstitution, _, hevaluator⟩ := walks_return_guards
  have hdepth : loopedRefused.1.guard.depth = loopedRefused.1.guard.visiting.length := by
    decide +kernel
  have hemployed : Evaluator.Employed ⟨0, 0⟩ loopedRefused := .call _ (.start looped)
  have hlived : Substitution.Lived loopedRebuilt := .apply 14 (.start ⟨1, 9⟩ _)
  exact ⟨⟨hdepth, hemployed, by decide +kernel, hevaluator _ _ hemployed, (hcall _ hdepth).1 _⟩,
    hlived,
    by decide +kernel, hsubstitution _ hlived⟩

end TypeCalculus
