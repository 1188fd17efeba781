import TypeCalculus.Proofs.EvaluatorSources
import TypeCalculus.Proofs.Operations
import TypeCalculus.Proofs.Tasks

namespace TypeCalculus

open Store (Later EmptiesIn Drawn kind_emptiesIn)

theorem Discipline.Evolves.later {st st' : Store} (h : Discipline.Evolves .typed st st')
    (hg : Discipline.Good .typed st) : Later st st' :=
  ⟨h.grown, fun _ => (h.good hg).wellFormed⟩

/-- What growing and giving a placeholder a body preserve, every operation preserves. -/
theorem Operation.Outcome.preserves {op : Operation} {st st' : Store} (h : Outcome .typed op st st')
    (hg : Discipline.Good .typed st) {P : Store → Prop} (later : ∀ st', Later st st' → P st')
    (filled : ∀ st' t body, P st' → st'.cells[t]? = some (.reserved none) →
      body.isContainer = true →
      (st'.filled t body).WellFormed → P (st'.filled t body)) : P st' := by
  have hgood := h.good hg
  cases h with
  | evolved h _ => exact later _ (h.later hg)
  | defined h _ _ _ hc _ hk =>
    exact filled _ _ _ (later _ (h.later hg)) hc (hk rfl).1 hgood.wellFormed

namespace Store

/-- An operator that the store has stays made of the same types. -/
theorem parts_extends {st st' : Store} (hl : st.Linked) (he : st.Extends st') {operator : Operator}
    (ho : st.Has operator) : st'.parts operator = st.parts operator := by
  have hc := he.carries
  cases operator with
  | conditional id => rw [parts, parts, hc.conditional ho]
  | mapping id =>
    rw [parts, parts, hc.mapping ho]
    cases hv : (st.mapping id).value with
    | conditional c => exact congrArg Conditional.types (hc.conditional (hl.has ho hv))
    | keep | deep => rfl

end Store

namespace Evaluator

variable {s : State} {limits : Limits}

/-- How an evaluator and its store can have come about under some limits, if types are made by the
action for their kind and out of types that are there. Other evaluators and substitutions may have
worked on the store in between. -/
inductive Engaged (limits : Limits) : State → Prop
  | start : Engaged limits (start limits, .initial)
  | operation {s : State} (op : Operation) (h : Engaged limits s) (ho : op.Accepted .typed s.2) :
    Engaged limits (s.1, op.after s.2)
  | call {s : State} (call : Call) (h : Engaged limits s) (hc : call.Accepted .typed s.2) :
    Engaged limits (Action.run call.act s).2
  | clear {s : State} (h : Engaged limits s) : Engaged limits (s.1.clear, s.2)

theorem Engaged.operations (h : Engaged limits s) {ops : List Operation}
    (ho : Operation.AllAccepted .typed s.2 ops) :
    Engaged limits (s.1, Operation.afterAll s.2 ops) :=
  ho.preserves (P := fun st => Engaged limits (s.1, st)) h fun op h ho => h.operation op ho

theorem rested_empty {e : Evaluator} {st : Store} (hw : st.WellFormed) (hm : e.memo = .empty) :
    Rested (e, st) := by
  have hnone (task : Task) : e.memo.get? task = none := by
    rw [hm]
    rfl
  refine ⟨⟨hw, fun h => ?_, fun h => ?_⟩, fun task ⟨_, _, h⟩ => ?_, fun X task a h => ?_⟩
  all_goals cases (hnone _).symm.trans h

/-- What is remembered stays drawn from where it was, whatever body a placeholder is given. -/
theorem Rested.filled (h : Rested s) {u : TypeId} {body : Node}
    (hc : s.2.cells[u]? = some (.reserved none)) (hk : body.isContainer = true)
    (hw : (s.2.filled u body).WellFormed) : Rested (s.1, s.2.filled u body) where
  stocked := h.stocked.filled hw
  idle := h.idle
  done _ task a hm :=
    (h.done _ task a hm).filled hc h.stocked.sound hk hw (.inr (h.done _ task a hm))

theorem Rested.ready (h : Rested s) (hg : Discipline.Good .typed s.2) :
    Ready (Discipline.rules .typed) s :=
  ⟨hg, fun hm ht => ⟨fun _ => h.stocked.type hm ht, fun hd => by cases hd⟩⟩

/-- A call may be made where only some empty placeholders can be reached from what it is given. -/
theorem Call.Accepted.permitted {X : TypeId → Prop} {call : Call} {st : Store}
    (hc : call.Accepted .typed st) (hg : Discipline.Good .typed st)
    (hin : ∀ t ∈ call.operands, EmptiesIn X st t)
    (hparts : ∀ operator, call.operator? = some operator →
      ∀ t ∈ st.parts operator, EmptiesIn X st t) :
    call.Permitted (closedTypes X) st := by
  have htyped : Discipline.typed ≠ .free := fun h => by cases h
  refine ⟨hin, fun operator ho st' h' t ht => ?_, fun _ _ _ _ h => h.elim⟩
  rw [Store.parts_extends (hg.linked htyped) h'.grown (hc.operator htyped operator ho)] at ht
  exact (kind_emptiesIn X).later hg.wellFormed h'.grown (hparts operator ho t ht)

theorem Call.Accepted.permitted_any {call : Call} {st : Store} (hc : call.Accepted .typed st)
    (hg : Discipline.Good .typed st) : call.Permitted (closedTypes fun _ => True) st :=
  hc.permitted hg (fun t ht => ⟨(hc.operands t ht).valid (fun h => by cases h),
    fun _ _ _ => trivial⟩)
    fun _ _ _ ht => ⟨hg.wellFormed.part_lt ht, fun _ _ _ => trivial⟩

/-- Whatever happened to the store between two calls, the evaluator remembers answers that were
drawn from their subjects. -/
theorem Engaged.rested (h : Engaged limits s) : Discipline.Good .typed s.2 ∧ Rested s := by
  have htyped : Discipline.typed ≠ .solid := fun h => by cases h
  induction h with
  | start =>
    have hg := Discipline.good_initial .typed
    exact ⟨hg, rested_empty hg.wellFormed rfl⟩
  | @operation s op _ ho ih =>
    obtain ⟨hg, hr⟩ := ih
    have hout := Operation.outcome htyped hg ho
    exact ⟨hout.good hg, hout.preserves (P := fun st => Rested (s.1, st)) hg
      (fun _ h => hr.later (.store h)) fun _ _ _ hr hc hk hw => hr.filled hc hk hw⟩
  | @call s call _ hc ih =>
    obtain ⟨hg, hr⟩ := ih
    have hd := hr.ready hg
    exact ⟨((Call.worked htyped hd hc).1.upholds htyped hd).store.good hg,
      hr.later (call.yields hr (hc.permitted_any hg)).1⟩
  | clear _ ih => exact ⟨ih.1, rested_empty ih.1.wellFormed rfl⟩

/-- From the answer to a call no empty placeholder can be reached but those that could be reached
from what the call was given. -/
theorem Engaged.emptiesIn (h : Engaged limits s) {X : TypeId → Prop} {call : Call}
    (hc : call.Accepted .typed s.2) (hin : ∀ t ∈ call.operands, EmptiesIn X s.2 t)
    (hparts : ∀ operator, call.operator? = some operator →
      ∀ t ∈ s.2.parts operator, EmptiesIn X s.2 t) :
    let r := Action.run call.act s
    EmptiesIn X r.2.2 r.1 := by
  obtain ⟨hg, hr⟩ := h.rested
  exact (call.yields hr (hc.permitted hg hin hparts)).2

end Evaluator

namespace Substitution

variable {s : State} {bound : Set TypeId}

/-- How a substitution and its store can have come about, and what was ever bound in it. -/
inductive Employed : Set TypeId → State → Prop
  | start (limits : Limits) : Employed ∅ (start limits, .initial)
  | ofBindings {bound : Set TypeId} {s : State} (h : Employed bound s) {bindings : Bindings}
    (hb : bindings.AreOf (fun st t => t < st.size) s.2) :
    Employed {t | ∃ name, bindings.get? name = some t} (ofBindings bindings, s.2)
  | operation {bound : Set TypeId} {s : State} (op : Operation) (h : Employed bound s)
    (ho : op.Accepted .typed s.2) : Employed bound (s.1, op.after s.2)
  | bindInfer {bound : Set TypeId} {s : State} (h : Employed bound s) (name : String) {t : TypeId}
    (ht : t < s.2.size) : Employed (insert t bound) (s.1.bindInfer name t, s.2)
  | bindParam {bound : Set TypeId} {s : State} (h : Employed bound s) (name : String) {t : TypeId}
    (ht : t < s.2.size) : Employed (insert t bound) (s.1.bindParam name t, s.2)
  | apply {bound : Set TypeId} {s : State} (h : Employed bound s) {t : TypeId} (ht : t < s.2.size) :
    Employed bound (Action.run (apply t) s).2

theorem Employed.operations (h : Employed bound s) {ops : List Operation}
    (ho : Operation.AllAccepted .typed s.2 ops) :
    Employed bound (s.1, Operation.afterAll s.2 ops) :=
  ho.preserves (P := fun st => Employed bound (s.1, st)) h fun op h ho => h.operation op ho

structure Tracked (bound : Set TypeId) (s : State) : Prop where
  good : Discipline.Good .typed s.2
  given : Given bound s
  traces (X : TypeId → Prop) : Traces bound X s

theorem Given.ready (hs : Given bound s) (hg : Discipline.Good .typed s.2) :
    Ready (Discipline.rules .typed) s := by
  have htyped : Discipline.typed ≠ .solid := fun h => by cases h
  exact ⟨hg, fun _ _ h => Operation.fit_of_lt htyped fun _ => hs.valid (hs.infers h),
    fun _ _ h => Operation.fit_of_lt htyped fun _ => hs.valid (hs.params h),
    fun h => Operation.fit_of_lt htyped fun _ => (hs.memo h).2⟩

theorem Given.bind (hs : Given bound s) {t : TypeId} (ht : t < s.2.size) :
    Given (insert t bound) s where
  sound := hs.sound
  valid hv := by
    rcases hv with rfl | hv
    · exact ht
    · exact hs.valid hv
  infers h := .inr (hs.infers h)
  params h := .inr (hs.params h)
  memo := hs.memo

theorem Traces.bind {X : TypeId → Prop} (h : Traces bound X s) (t : TypeId) :
    Traces (insert t bound) X s :=
  fun u a hm hin => h u a hm fun v hv => hin v (hv.imp_right .inr)

theorem mem_of_insert {bindings : Bindings} {name other : String} {t v : TypeId}
    (hb : ∀ {name v}, bindings.get? name = some v → v ∈ insert t bound)
    (h : (bindings.insert name t).get? other = some v) : v ∈ insert t bound := by
  rw [Dict.get?_insert] at h
  split at h
  · cases h
    exact .inl rfl
  · exact hb h

theorem Tracked.operation (hs : Tracked bound s) {op : Operation} (ho : op.Accepted .typed s.2) :
    Tracked bound (s.1, op.after s.2) := by
  have hout := Operation.outcome (fun h => by cases h) hs.good ho
  have hkept : Given bound (s.1, op.after s.2) ∧ ∀ X, Traces bound X (s.1, op.after s.2) := by
    refine hout.preserves (P := fun st => Given bound (s.1, st) ∧
      ∀ X, Traces bound X (s.1, st)) hs.good
      (fun st' h => ?_) fun st' u body ⟨hgiven, ht⟩ hc hk hw => ?_
    · have htracks : Tracks bound s (s.1, st') := .store h
      exact ⟨htracks.given hs.given, fun X => htracks.traces hs.given X (hs.traces X)⟩
    · exact ⟨hgiven.filled hw, fun X t a hm =>
        (ht _ t a hm).filled hc hgiven.sound hk hw (.inr (ht _ t a hm))⟩
  exact ⟨hout.good hs.good, hkept.1, hkept.2⟩

/-- Applying a substitution keeps track of where its answers come from. -/
theorem Tracked.apply (hs : Tracked bound s) {t : TypeId} (ht : t < s.2.size) :
    Tracked bound (Action.run (apply t) s).2 := by
  have htracks := (drawn_apply hs.given ht).1
  have hfit : Discipline.Fit .typed s.2 t := Operation.fit_of_lt (fun h => by cases h) fun _ => ht
  exact ⟨(runs_apply (hs.given.ready hs.good) hfit).leads.1.store.good hs.good,
    htracks.given hs.given, fun X => htracks.traces hs.given X (hs.traces X)⟩

theorem Employed.tracked (h : Employed bound s) : Tracked bound s := by
  induction h with
  | start limits =>
    have hg := Discipline.good_initial .typed
    exact ⟨hg, ⟨hg.wellFormed, nofun, nofun, nofun, nofun⟩, nofun⟩
  | ofBindings _ hb ih =>
    refine ⟨ih.good, ⟨ih.given.sound, ?_, fun h => ⟨_, h⟩, nofun, nofun⟩, nofun⟩
    rintro t ⟨name, h⟩
    exact hb name t h
  | operation _ _ ho ih => exact ih.operation ho
  | bindInfer _ _ ht ih =>
    have hgiven := ih.given.bind ht
    exact ⟨ih.good, { hgiven with infers := mem_of_insert hgiven.infers },
      fun X => (ih.traces X).bind _⟩
  | bindParam _ _ ht ih =>
    have hgiven := ih.given.bind ht
    exact ⟨ih.good, { hgiven with params := mem_of_insert hgiven.params },
      fun X => (ih.traces X).bind _⟩
  | apply _ ht ih => exact ih.apply ht

/-- From the answer of a substitution no empty placeholder can be reached but those that could be
reached from the type that it was given and from what was ever bound. -/
theorem Employed.emptiesIn (h : Employed bound s) {X : TypeId → Prop} {t : TypeId}
    (ht : EmptiesIn X s.2 t) (hbound : ∀ v ∈ bound, EmptiesIn X s.2 v) :
    let r := Action.run (Substitution.apply t) s
    EmptiesIn X r.2.2 r.1 := by
  have hs := h.tracked
  obtain ⟨htracks, ha⟩ := drawn_apply hs.given ht.1
  refine ha.drawn (hs.traces X) fun v hv =>
    (kind_emptiesIn X).later hs.given.sound htracks.later.grown ?_
  rcases hv with rfl | hv
  · exact ht
  · exact hbound v hv

end Substitution

/-- If no empty placeholder can be reached from what an evaluator is given, from what its operator
is made of, or, for a substitution, from the template and all that was ever bound, then none can be
reached from the answer, whichever empty placeholders there are in the store. -/
theorem answer_settled :
    (∀ (limits : Limits) (s : Evaluator.State) (call : Evaluator.Call), Evaluator.Engaged limits s →
      call.Accepted .typed s.2 → (∀ t ∈ call.operands, s.2.Settled t) →
      (∀ operator, call.operator? = some operator → ∀ t ∈ s.2.parts operator, s.2.Settled t) →
      let r := Action.run call.act s
      r.1 < r.2.2.size ∧ r.2.2.Settled r.1) ∧
    ∀ (bound : Set TypeId) (s : Substitution.State) (t : TypeId), Substitution.Employed bound s →
      t < s.2.size → s.2.Settled t → (∀ v ∈ bound, s.2.Settled v) →
      let r := Action.run (Substitution.apply t) s
      r.1 < r.2.2.size ∧ r.2.2.Settled r.1 := by
  constructor
  · intro limits s call hs hc hoperands hparts
    have hw := hs.rested.1.wellFormed
    refine Store.emptiesIn_nothing.mp (hs.emptiesIn hc (fun t ht => ?_) fun operator ho t ht => ?_)
    · exact ⟨(hc.operands t ht).valid (fun h => by cases h), hoperands t ht⟩
    · exact ⟨hw.part_lt ht, hparts operator ho t ht⟩
  · intro bound s t hs ht hsettled hbound
    exact Store.emptiesIn_nothing.mp
      (hs.emptiesIn ⟨ht, hsettled⟩ fun v hv => ⟨hs.tracked.given.valid hv, hbound v hv⟩)

/-- A list with a variable for its values, next to a placeholder that nothing was made of. -/
def looseList : List Operation :=
  [.build .reserve, .build .reserve, .build (.infer "X"),
    .build (.defineObject 13 { fields := [{ name := "value", type := 14 },
      { name := "next", type := 13 }] }),
    .build (.mapping { value := .deep })]

/-- Both a deep mapping of the list and a substitution in it answer through a placeholder of their
own. -/
theorem answer_settled_looseList :
    let st := Operation.afterAll .initial looseList
    Operation.AllAccepted .typed .initial looseList ∧ st.cells[12]? = some (.reserved none) ∧
    st.Settled 13 ∧
    (let r := Action.run (Evaluator.Call.mapping 0 13).act (Evaluator.start, st)
     r.1 = 15 ∧ r.2.2.isReserved 15 = true ∧ r.1 < r.2.2.size ∧ r.2.2.Settled r.1) ∧
    (let r := Action.run (Substitution.apply 13) (Substitution.start.bindInfer "X" .string, st)
     r.1 = 15 ∧ r.2.2.isReserved 15 = true ∧ r.1 < r.2.2.size ∧ r.2.2.Settled r.1) := by
  have haccepted : Operation.AllAccepted .typed .initial looseList :=
    Operation.allAccepted_of_builds (by decide +kernel)
  have hsettled : ∀ t ∈ [13, 14, .string], (Operation.afterAll .initial looseList).Settled t :=
    fun _ => Store.settled_of_closed _ (by decide) (by decide)
  refine ⟨haccepted, by decide, hsettled 13 (by decide), ⟨by decide +kernel, by decide +kernel, ?_⟩,
    by decide +kernel, by decide +kernel, ?_⟩
  · refine answer_settled.1 .evaluation _ _ (Evaluator.Engaged.start.operations haccepted)
      ⟨fun t ht => ?_, fun _ _ h => ?_, fun _ => trivial⟩ (fun t ht => ?_) fun operator h t ht => ?_
    · rw [List.mem_singleton.mp ht]
      exact ⟨fun _ => by decide, fun h => by cases h⟩
    · cases h
      exact (by decide : 0 < (Operation.afterAll .initial looseList).mappings.items.length)
    · rw [List.mem_singleton.mp ht]
      exact hsettled 13 (by decide)
    · cases h
      have hparts : (Operation.afterAll .initial looseList).parts (.mapping 0) = [] := by decide
      cases hparts ▸ ht
  · refine answer_settled.2 (insert .string ∅) _ 13
      (((Substitution.Employed.start .substitution).operations haccepted).bindInfer "X" (by decide))
      (by decide) (hsettled 13 (by decide)) fun v hv => ?_
    rcases hv with rfl | hv
    · exact hsettled .string (by decide)
    · cases hv

/-- A type that mentions the next place in the store comes to mention the placeholder that a mapping
of it reserves; and a substitution goes on answering with what was bound before. -/
theorem answer_dangles_foreign_rebound :
    (let st := Operation.afterAll .initial
      [.build (.object { fields := [{ name := "x", type := 13 }] }),
        .build (.mapping { value := .deep })]
     let r := Action.run (Evaluator.Call.mapping 0 12).act (Evaluator.start, st)
     st.Settled 12 ∧ ¬ r.2.2.Settled r.1) ∧
    (let st := Operation.afterAll .initial [.build .reserve, .build (.infer "X"),
      .build (.array 13)]
     let first := Action.run (Substitution.apply 14) (Substitution.start.bindInfer "X" 12, st)
     let s := (first.2.1.bindInfer "X" .string, first.2.2)
     let r := Action.run (Substitution.apply 14) s
     s.1.infers = Dict.empty.insert "X" .string ∧ s.1.params = .empty ∧ s.2.Settled .string ∧
       s.2.Settled 14 ∧ ¬ r.2.2.Settled r.1) := by
  refine ⟨⟨?_, fun h => ?_⟩, by decide +kernel, by decide +kernel, ?_, ?_, fun h => ?_⟩
  · exact Store.settled_of_closed [12, 13] (by decide) (by decide) (by decide)
  · exact h 13 (.single (by decide +kernel)) (by decide +kernel)
  · exact Store.settled_of_closed [.string] (by decide +kernel) (by decide +kernel) (by decide)
  · exact Store.settled_of_closed [13, 14] (by decide +kernel) (by decide +kernel) (by decide)
  · exact h 12 (.single (by decide +kernel)) (by decide +kernel)

end TypeCalculus
