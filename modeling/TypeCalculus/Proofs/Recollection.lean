import TypeCalculus.Proofs.Answering
import TypeCalculus.Proofs.Spending

namespace TypeCalculus

theorem Operation.Outcome.carries {d : Discipline} {op : Operation} {st st' : Store}
    (h : Outcome d op st st') : st.Carries st' := by
  cases h with
  | evolved h _ => exact h.grown.carries
  | defined h _ _ _ hc _ _ =>
    exact h.grown.carries.trans ⟨Store.widens_filled hc, .refl _, .refl _⟩

namespace Evaluator

/-- How an evaluator and its store can have come about: it is called and cleared, and anything may
happen to the store between its calls. -/
inductive Used (d : Discipline) : State → Prop
  | start : Used d (start, .initial)
  | operation {s : State} (op : Operation) (h : Used d s) (ho : op.Accepted d s.2) :
    Used d (s.1, op.after s.2)
  | call {s : State} (call : Call) (h : Used d s) (hc : call.Accepted d s.2) :
    Used d (Action.run call.act s).2
  | clear {s : State} (h : Used d s) : Used d (s.1.clear, s.2)

theorem Used.operations {d : Discipline} {s : State} (h : Used d s) {ops : List Operation}
    (ho : Operation.AllAccepted d s.2 ops) : Used d (s.1, Operation.afterAll s.2 ops) :=
  ho.preserves (P := fun st => Used d (s.1, st)) h fun op h ho => h.operation op ho

structure Idle (s : State) : Prop where
  orderly : Orderly s
  reached : s.2.Reached
  visiting : s.1.guard.visiting = []
  limits : s.1.limits = .evaluation
  iterations : s.1.guard.overrun = false → s.1.guard.iterations = 0

variable {s s' : State}

theorem Idle.depth (h : Idle s) : s.1.guard.depth = 0 := by
  rw [h.orderly.depth, h.visiting]
  rfl

/-- An evaluator that knows nothing is as good as new. -/
theorem Idle.empty {e : Evaluator} {st : Store} (hg : Discipline.Good .given st) (hr : st.Reached)
    (hl : e.limits = .evaluation) (hm : e.memo = .empty)
    (hguard : e.guard.reset = e.guard) (hlimits : e.guard.limits = e.limits) : Idle (e, st) := by
  have hnone (task : Task) : e.memo.get? task = none := by
    rw [hm]
    rfl
  have hvisiting : e.guard.visiting = [] := by rw [← hguard]; rfl
  refine ⟨⟨⟨hg, fun hp _ => ?_⟩, fun hp => ?_, fun task => ?_, ?_, hlimits, fun hp => ?_,
    fun _ task a _ hp => ?_⟩, hr, hvisiting, hl, fun _ => ?_⟩
  · cases (hnone _).symm.trans hp
  · cases (hnone _).symm.trans hp
  · refine ⟨fun hv => ?_, fun ⟨p, r, hp⟩ => ?_⟩
    · rw [hvisiting] at hv
      cases hv
    · cases (hnone _).symm.trans hp
  · rw [← hguard]
    rfl
  · cases (hnone _).symm.trans hp
  · cases (hnone _).symm.trans hp
  · rw [← hguard]
    rfl

theorem idle_start {st : Store} (hg : Discipline.Good .given st) (hr : st.Reached) :
    Idle (start, st) :=
  .empty hg hr rfl rfl rfl rfl

theorem Idle.later (h : Idle s) (hs : Advances s s') : Idle s' where
  orderly := hs.orderly h.orderly
  reached := hs.upholds.store.reached h.reached
  visiting := hs.guard.visiting.trans h.visiting
  limits := hs.limits.trans h.limits
  iterations ho := hs.rested h.orderly h.depth (h.iterations (hs.overrun ho)) ho

/-- Whatever it has been used for, between its calls an evaluator is idle. -/
theorem Used.idle (h : Used .given s) : Idle s := by
  have hgiven : Discipline.given ≠ .solid := fun h => by cases h
  induction h with
  | start => exact idle_start (Discipline.good_initial _) .initial
  | operation op _ ho ih =>
    have hd := ih.orderly.ready
    have hout := Operation.outcome hgiven hd.good ho
    refine ⟨ih.orderly.carries hout.carries ⟨hout.good hd.good, fun hm ht => ?_⟩,
      hout.reached ih.reached, ih.visiting, ih.limits, ih.iterations⟩
    have hlt := (hd.memo hm ht).valid fun h => by cases h
    exact fit_given (Nat.lt_of_lt_of_le hlt hout.carries.size)
  | call call _ hc ih =>
    exact ih.later ((Call.worked hgiven ih.orderly.ready hc).1.advances ih.orderly ih.visiting)
  | clear _ ih =>
    exact .empty ih.orderly.ready.good ih.reached ih.limits rfl rfl ih.orderly.limits

section Agreement

variable {operator : Operator} {subject : TypeId}

theorem Idle.hasRoom (h : Idle s) {base : Store} (hb : base.Carries s.2) :
    HasRoom base s.1.limits.depth s where
  carries := hb
  noted hv := by
    rw [h.visiting] at hv
    cases hv
  balanced := h.orderly.depth
  depth := by
    rw [h.depth, h.orderly.limits]
    exact Nat.zero_add _

/-- An evaluator that remembers has less to do than one that does not. -/
theorem Idle.eases (h : Idle s) (ho : s.1.guard.overrun = false) {base : Store} (ha : base.Anchored)
    (hb : base.Carries s.2) (limits : Limits) (room : Nat) :
    Effort.Eases limits base.subtasks base.Clean room (effort s.1) (effort start) := by
  have hi := h.iterations ho
  refine ⟨fun task hk => ?_, fun task hk _ hc sub hsub => ?_, ?_, ?_, fun _ => hi⟩
  · cases hk
  · have hnot : ¬ Running s.1 task := by
      rw [← h.orderly.visiting, h.visiting]
      exact List.not_mem_nil
    obtain ⟨progress, hm⟩ := Option.isSome_iff_exists.mp hk
    cases progress with
    | running p r => exact absurd ⟨p, r, hm⟩ hnot
    | done a =>
      have hsettles := (h.orderly.solved ho task a (hc.carries hb ha) hm).1
      rw [← hc.subtasks_carries hb ha] at hsub
      obtain ⟨b, hrecalls⟩ := hsettles.answered hsub
      show (s.1.memo.get? sub).isSome = true
      rw [hrecalls]
      rfl
  · show s.1.guard.iterations ≤ _
    rw [hi]
    exact Nat.zero_le _
  · show s.1.guard.iterations ≤ _
    rw [hi]
    exact Nat.zero_le _

/-- Applying an operator to a clean subject comes down to clean tasks. -/
theorem clean_openings {base : Store} (ha : base.Anchored) (hc : base.Clean ⟨operator, subject⟩)
    {task : Task} (ht : task ∈ openings base operator subject) : base.Clean task := by
  cases operator with
  | conditional id =>
    obtain ⟨x, hx, rfl⟩ := List.mem_map.mp ht
    exact ⟨hc.operator, (Store.mem_targets hc.subject hx ha).1⟩
  | mapping id =>
    obtain ⟨x, hx, rfl⟩ := List.mem_map.mp ht
    exact ⟨hc.operator, hc.subject.members hx⟩

/-- A task that a fresh evaluator is not refused a visit for, no evaluator is. -/
theorem Idle.not_overrun (h : Idle s) (ho : s.1.guard.overrun = false) {base st : Store}
    (ha : base.Anchored) (hc : base.Clean ⟨operator, subject⟩) (hb : base.Carries s.2)
    (hfresh : Idle (start, st)) (hst : base.Carries st)
    (hf : (Action.run (applyOperator operator subject) (start, st)).2.1.guard.overrun = false) :
    (Action.run (applyOperator operator subject) s).2.1.guard.overrun = false := by
  have hw := (spends_operator ha hc (h.hasRoom hb)).2
  have hs := (spends_operator ha hc (hfresh.hasRoom hst)).2
  rw [h.orderly.limits, h.limits] at hw
  have hlast : (effort (Action.run (applyOperator operator subject) (start, st)).2.1).overrun =
      false :=
    hf
  rw [hs] at hlast
  have hend := (h.eases ho ha hb Limits.evaluation Limits.evaluation.depth).foldl_both
    (Effort.overrun_explore _ _ _)
    (fun w f task hc h =>
      h.explore_both (fun task hc sub hsub => (hc.subtask ha hsub).1) (Nat.le_refl _) hc)
    (fun task ht => clean_openings ha hc ht) hlast
  show (effort (Action.run (applyOperator operator subject) s).2.1).overrun = false
  rw [hw]
  exact hend.2 ho

/-- Of two evaluators that are refused nothing, the second answers as the first did. -/
theorem Idle.same_answer (h : Idle s) (hc : s.2.Clean ⟨operator, subject⟩) {e : Evaluator}
    (ho : (Action.run (applyOperator operator subject) s).2.1.guard.overrun = false)
    (he : Idle (e, (Action.run (applyOperator operator subject) s).2.2))
    (hoe : (Action.run (applyOperator operator subject)
      (e, (Action.run (applyOperator operator subject) s).2.2)).2.1.guard.overrun = false) :
    (Action.run (applyOperator operator subject)
      (e, (Action.run (applyOperator operator subject) s).2.2)).1 =
        (Action.run (applyOperator operator subject) s).1 := by
  obtain ⟨hfirst, hright⟩ := advances_operator h.orderly h.visiting hc.knows
  rcases hrun : Action.run (applyOperator operator subject) s with ⟨a, s₁⟩
  rw [hrun] at ho he hoe hfirst hright
  have hs₁ := hfirst.orderly h.orderly
  have hc₁ := hc.carries hfirst.carries h.orderly.anchored
  obtain ⟨hsecond, hright'⟩ := advances_operator he.orderly he.visiting hc₁.knows
  rcases hrun' : Action.run (applyOperator operator subject) (e, s₁.2) with ⟨b, s₂⟩
  rw [hrun'] at hoe hsecond hright'
  have hs₂ := hsecond.orderly he.orderly
  have hc₂ := hc₁.carries hsecond.carries hs₁.anchored
  have hlimits : s₂.1.limits = s₁.1.limits := by
    rw [hsecond.limits, hfirst.limits, he.limits, h.limits]
  have hlater := (hright.right hc₁ ho).1.carries hsecond.carries hs₁.anchored hs₁.linked
    (fun task hclean a hm => ⟨hm, hs₁.recalled_solid ho hclean hm⟩) hc₁
  have hsolved := (hs₁.solved ho).carries hsecond.carries hs₁.anchored hs₁.linked
    fun _ _ hm => hs₁.known hm
  exact OperatorAnswer.agree (he.later hsecond).reached.shared hs₂.anchored
    (hlimits ▸ hs₂.solved hoe)
    hsolved hc₂ (hright'.right hc₂ hoe).1 hlater

end Agreement

/-- The memo never changes an answer. An evaluator that was used properly and was never refused a
visit answers as a fresh one does in the same store, whichever of the two is asked first, if the
fresh one is refused no visit; then neither is the other. -/
theorem applyOperator_remembers (h : Used .given s) (ho : s.1.guard.overrun = false)
    {operator : Operator} {subject : TypeId} (hc : s.2.Clean ⟨operator, subject⟩) :
    (let used := Action.run (applyOperator operator subject) s
     let new := Action.run (applyOperator operator subject) (start, used.2.2)
     new.2.1.guard.overrun = false → used.2.1.guard.overrun = false ∧
       ((fresh (applyOperator operator subject)).run used.2.2).1 = used.1) ∧
    (let new := Action.run (applyOperator operator subject) (start, s.2)
     let used := Action.run (applyOperator operator subject) (s.1, new.2.2)
     new.2.1.guard.overrun = false → used.2.1.guard.overrun = false ∧
       ((fresh (applyOperator operator subject)).run s.2).1 = used.1) := by
  have hidle := h.idle
  have ha := hidle.orderly.anchored
  have hadvances := (advances_operator hidle.orderly hidle.visiting hc.knows).1
  have hstart := idle_start hidle.orderly.ready.good hidle.reached
  have hnew := (advances_operator hstart.orderly hstart.visiting hc.knows).1
  refine ⟨fun hf => ?_, fun hf => ?_⟩
  · have hafter := hidle.later hadvances
    have hfresh := idle_start hafter.orderly.ready.good hafter.reached
    have hover := hidle.not_overrun ho ha hc (.refl _) hfresh hadvances.carries hf
    exact ⟨hover, hidle.same_answer hc hover hfresh hf⟩
  · have hafter := hstart.later hnew
    have hused : Idle (s.1, (Action.run (applyOperator operator subject) (start, s.2)).2.2) := by
      refine ⟨hidle.orderly.carries hnew.carries ⟨hafter.orderly.ready.good, fun hm ht => ?_⟩,
        hafter.reached, hidle.visiting, hidle.limits, hidle.iterations⟩
      exact fit_later hidle.orderly.ready (.lift hnew.upholds.store)
        (hidle.orderly.ready.memo hm ht)
    have hover := hused.not_overrun ho ha hc hnew.carries hstart (.refl _) hf
    exact ⟨hover, (hstart.same_answer hc hf hused hover).symm⟩

/-- Objects in an array, mapped before there is an object that they are the rows of. -/
def mappedRows : State :=
  let st := Operation.afterAll .initial
    [.build (.object { fields := [{ name := "x", type := .string }] }), .build (.array 12),
      .build (.mapping { value := .deep, optional := some .add })]
  let s := (Action.run (applyMapping 0 13) (start, st)).2
  (s.1, Operation.afterAll s.2 [.build (.object
    { fields := [{ name := "rows", type := 13 }, { name := "first", type := 12 }] })])

theorem applyOperator_remembers_mappedRows :
    Used .given mappedRows ∧ mappedRows.1.guard.overrun = false ∧
    mappedRows.2.Clean ⟨.mapping 0, 18⟩ ∧
      (let used := Action.run (applyOperator (.mapping 0) 18) mappedRows
       let new := Action.run (applyOperator (.mapping 0) 18) (start, used.2.2)
       new.2.1.guard.overrun = false ∧
         ((fresh (applyOperator (.mapping 0) 18)).run used.2.2).1 = used.1) := by
  have hused : Used .given mappedRows := by
    apply Used.operations
    · apply Used.call (.mapping 0 13)
      · apply Used.start.operations
        refine ⟨⟨fun _ => ?_, fun _ => trivial⟩, ⟨fun _ => ?_, fun _ => trivial⟩,
          ⟨fun _ => ?_, fun _ => trivial⟩, trivial⟩
        · exact ⟨by decide, fun _ h => by cases h⟩
        · exact ⟨by decide, fun _ h => by cases h⟩
        · exact ⟨by decide, fun _ h => by cases h⟩
      · refine ⟨fun t ht => ?_, fun _ _ h => ?_, fun h => by cases h⟩
        · rw [List.mem_singleton.mp ht]
          exact fit_given (by decide)
        · cases h
          exact (by decide : 0 < 1)
    · exact ⟨⟨fun _ => ⟨by decide +kernel, fun _ h => by cases h⟩, fun _ => trivial⟩, trivial⟩
  have hover : mappedRows.1.guard.overrun = false := by decide +kernel
  have hclean : mappedRows.2.Clean ⟨.mapping 0, 18⟩ := by
    have hstring : mappedRows.2.Solid .string := hused.idle.orderly.anchored.founded.solid .string
    have hobject : mappedRows.2.Solid 12 := by
      have hcell : mappedRows.2.cells[12]? = some (.interned (.object 0)) := by decide +kernel
      have hparts : mappedRows.2.children (.object 0) = [.string] := by decide +kernel
      apply Store.solid_of_cell hcell
      simpa [hparts] using hstring
    have harray : mappedRows.2.Solid 13 := by
      have hcell : mappedRows.2.cells[13]? = some (.interned (.array 12)) := by decide +kernel
      apply Store.solid_of_cell hcell
      simpa [Store.children] using hobject
    have hrows : mappedRows.2.Solid 18 := by
      have hcell : mappedRows.2.cells[18]? = some (.interned (.object 2)) := by decide +kernel
      have hparts : mappedRows.2.children (.object 2) = [13, 12] := by decide +kernel
      apply Store.solid_of_cell hcell
      simpa [hparts] using And.intro harray hobject
    refine ⟨⟨?_, fun c hc => ?_⟩, hrows⟩
    · show 0 < mappedRows.2.mappings.items.length
      decide +kernel
    · have hdeep : (mappedRows.2.mapping 0).value = .deep := by decide +kernel
      cases hdeep.symm.trans hc
  exact ⟨hused, hover, hclean, by decide +kernel,
    ((applyOperator_remembers hused hover hclean).1 (by decide +kernel)).2⟩

/-- An array that was made to mention the place at which it would stand, mapped. -/
def selfArray : State :=
  (Action.run (applyMapping 0 12) (start, Operation.afterAll .initial
    [.build (.array 12), .build (.mapping { value := .deep })])).2

/-- Where users need not wait until a type is there to mention it, an evaluator that remembers can
answer otherwise than a fresh one. -/
theorem applyOperator_varies_selfArray :
    Used .free selfArray ∧ selfArray.1.guard.overrun = false ∧ selfArray.2.Clean ⟨.mapping 0, 12⟩ ∧
      (let used := Action.run (applyOperator (.mapping 0) 12) selfArray
       let new := Action.run (applyOperator (.mapping 0) 12) (start, used.2.2)
       used.2.1.guard.overrun = false ∧ new.2.1.guard.overrun = false ∧
         ((fresh (applyOperator (.mapping 0) 12)).run used.2.2).1 ≠ used.1) := by
  have hcell : selfArray.2.cells[12]? = some (.interned (.array 12)) := by decide +kernel
  have hdeep : (selfArray.2.mapping 0).value = .deep := by decide +kernel
  refine ⟨?_, by decide +kernel, ⟨⟨?_, fun c hc => ?_⟩, fun u hu => ?_⟩, by decide +kernel,
    by decide +kernel, by decide +kernel⟩
  · apply Used.call (.mapping 0 12)
    · exact Used.start.operations
        ⟨Operation.accepted_free .., Operation.accepted_free .., trivial⟩
    · exact ⟨fun t _ => Discipline.fit_free _ t, fun h => absurd rfl h, fun h => by cases h⟩
  · show 0 < selfArray.2.mappings.items.length
    decide +kernel
  · cases hdeep.symm.trans hc
  · have hself : u = 12 := by
      apply hu.inside (X := (· = 12)) _ rfl
      rintro t rfl c hc
      rw [Store.mentions_of_cell hcell] at hc
      simpa [Store.children] using hc
    rw [hself]
    exact ⟨_, hcell⟩

end Evaluator

end TypeCalculus
