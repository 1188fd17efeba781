import TypeCalculus.Proofs.DeepMapping
import TypeCalculus.Proofs.Remembering

namespace TypeCalculus

def Limits.Positive (limits : Limits) : Prop := 1 ≤ limits.depth ∧ 1 ≤ limits.iterations

theorem Limits.positive_evaluation : Limits.evaluation.Positive := ⟨by decide, by decide⟩

/-- A guard that is as good as new lets the first visit begin. -/
theorem Guard.enter_first {κ : Type} [DecidableEq κ] {g : Guard κ} (hl : g.limits.Positive)
    (hv : g.visiting = []) (hd : g.depth = 0) (hi : g.iterations = 0) (key : κ) :
    (g.enter key).1 = .entered := by
  have hcount : ¬ g.limits.iterations < min (g.iterations + 1) countLimit := by
    have := hl.2
    omega
  have hdepth : g.depth < g.limits.depth := by
    have := hl.1
    omega
  have hnew : key ∉ g.visiting := by simp [hv]
  obtain ⟨_, he, _⟩ := Guard.enter_new hcount hdepth hnew
  rw [he]

namespace Evaluator

open Discipline (Evolves)

/-- The memo and the guard agree, and so they did each time a task was asked for. -/
structure Balanced (e : Evaluator) : Prop where
  visiting (task : Task) : task ∈ e.guard.visiting ↔ Running e task
  depth : e.guard.depth = e.guard.visiting.length
  limits : e.guard.limits = e.limits
  fresh : e.limits.Positive → e.guard.visiting = [] →
    e.guard.iterations = 0 ∧ e.guard.exceeded = false
  observed : e.limits.Positive → e.observed

structure Turns (s s' : State) : Prop extends Upholds (Discipline.rules .free) s s' where
  guard : s.1.guard.Kept s'.1.guard
  limits : s'.1.limits = s.1.limits
  done {task : Task} {a : TypeId} : Recalls s.1 task a → Recalls s'.1 task a
  balanced : Balanced s.1 → Balanced s'.1

instance : Evolution Turns where
  refl s := ⟨Evolution.refl s, .refl _, rfl, id, id⟩
  trans h h' := ⟨Evolution.trans h.toUpholds h'.toUpholds, h.guard.trans h'.guard,
    h'.limits.trans h.limits, fun hr => h'.done (h.done hr), fun hb => h'.balanced (h.balanced hb)⟩

variable {s s' : State}

theorem Turns.lift {st' : Store} (h : Evolves .free s.2 st') : Turns s (s.1, st') :=
  ⟨.lift h, .refl _, rfl, id, id⟩

theorem turns_store {α : Type} {act : EvalM α} {a : α} {st' : Store}
    (hrun : Action.run act s = (a, s.1, st')) (h : Evolves .free s.2 st') :
    Leads Turns act s fun _ _ => True := by
  unfold Leads
  rw [hrun]
  exact ⟨.lift h, trivial⟩

def Mappings (e : Evaluator) : Prop := ∀ task, Running e task → ∃ id, task.operator = .mapping id

structure Open (e : Evaluator) : Prop where
  mappings : Mappings e
  placeholder {task : Task} {r : Bool} : e.memo.get? task ≠ some (.running none r)

section Later

variable (h : Turns s s') (hb : Balanced s.1)

include h hb

theorem Turns.running_iff {task : Task} : Running s'.1 task ↔ Running s.1 task := by
  rw [← (h.balanced hb).visiting, ← hb.visiting, h.guard.visiting]

theorem Mappings.later (hm : Mappings s.1) : Mappings s'.1 :=
  fun task hr => hm task ((h.running_iff hb).mp hr)

theorem Open.later (ho : Open s.1) : Open s'.1 := by
  refine ⟨ho.mappings.later h hb, fun {task r} hm => ?_⟩
  obtain ⟨p, b, hp⟩ := (h.running_iff hb).mp ⟨_, _, hm⟩
  cases p with
  | none => exact ho.placeholder hp
  | some p =>
    obtain ⟨b', hp'⟩ := h.running hp
    cases hm.symm.trans hp'

end Later

section Memo

variable {task : Task} (hb : Balanced s.1)

include hb

theorem Balanced.inStep (hl : s.1.limits.Positive)
    (ht : ∀ r, s.1.memo.get? task ≠ some (.running none r)) : s.1.InStep task where
  visiting := hb.visiting
  placeholder := ht
  admission hm he := by
    rcases Guard.enter_cases s.1.guard task with ⟨he', _⟩ | ⟨_, hv, _⟩ | ⟨he', _⟩
    · cases he.symm.trans he'
    · obtain ⟨p, r, hr⟩ := (hb.visiting task).mp hv
      cases hm.symm.trans hr
    · rcases he' with he' | he' <;> cases he.symm.trans he'
  fresh hv := ⟨by rw [hb.depth, hv]; rfl, hb.fresh hl hv⟩

/-- A task may be asked for if it does not run without a placeholder. -/
theorem Balanced.asked (ht : ∀ r, s.1.memo.get? task ≠ some (.running none r)) :
    Balanced (asked s task).1 :=
  ⟨hb.visiting, hb.depth, hb.limits, hb.fresh, fun hl => ⟨hb.observed hl, hb.inStep hl ht⟩⟩

theorem Balanced.noted (hr : Running s.1 task) {p : Option TypeId} {r : Bool} :
    Balanced (noted s task (.running p r)).1 := by
  refine ⟨fun other => ?_, hb.depth, hb.limits, hb.fresh, hb.observed⟩
  rw [running_noted hr]
  exact hb.visiting other

theorem turns_again {p : TypeId} {r : Bool}
    (hm : s.1.memo.get? task = some (.running (some p) r)) :
    Turns s (noted s task (.running (some p) true)) :=
  have hr : Running s.1 task := ⟨_, _, hm⟩
  ⟨upholds_again hm, .refl _, rfl, (recalls_noted hr).mpr, fun _ => hb.noted hr⟩

variable {g : Guard Task}

/-- A visit that is refused leaves all as it is; the first one is not. -/
theorem turns_refused (hk : s.1.guard.Kept g)
    (hn : s.1.limits.Positive → s.1.guard.visiting ≠ []) :
    Turns s ({ s.1 with guard := g }, s.2) where
  toUpholds := .same rfl fun _ => hk
  guard := hk
  limits := rfl
  done hr := hr
  balanced _ := by
    refine ⟨fun task => ?_, ?_, hk.limits.trans hb.limits, fun hl hv => ?_, hb.observed⟩
    · rw [hk.visiting]
      exact hb.visiting task
    · rw [hk.depth, hk.visiting]
      exact hb.depth
    · exact absurd (hk.visiting.symm.trans hv) (hn hl)

variable (hg : Guard.Inside task s.1.guard g)

include hg

theorem Balanced.begun : Balanced (begun s task g).1 where
  visiting := visiting_begun hg.visiting hb.visiting
  depth := by
    rw [hg.depth, hg.visiting, List.length_cons, hb.depth]
  limits := hg.limits.trans hb.limits
  fresh _ hv := by
    rw [hg.visiting] at hv
    cases hv
  observed := hb.observed

/-- A task that is not known yet is begun, worked on and finished. Where nothing else is being
visited, the guard is then reset. -/
theorem turns_finished (hm : s.1.memo.get? task = none) (h : Turns (Evaluator.begun s task g) s')
    (a : TypeId) : Turns s (finished s' task a) := by
  have hb' := h.balanced (hb.begun hg)
  have hkept : s.1.guard.Kept (finished s' task a).1.guard := (hg.leave h.guard).rested hb.depth
  have hvisiting : s'.1.guard.visiting = task :: s.1.guard.visiting :=
    h.guard.visiting.trans hg.visiting
  have hstill : Running s'.1 task := (hb'.visiting task).mp (hvisiting ▸ List.mem_cons_self ..)
  refine ⟨(ready_free s).upholds_done hm hg h.toUpholds (Discipline.fit_free _ a), hkept, h.limits,
    fun {other b} hr => ?_, fun _ => ⟨fun other => ?_, ?_, ?_, fun _ hv => ?_, hb'.observed⟩⟩
  · have hr' := h.done ((recalls_begun hm).mpr hr)
    have hne : other ≠ task := by
      rintro rfl
      obtain ⟨p, r, hrun⟩ := hstill
      cases hrun.symm.trans hr'
    unfold Recalls
    rw [Dict.get?_insert, if_neg hne]
    exact hr'
  · rw [hkept.visiting]
    exact visiting_finished hvisiting hg.new hb'.visiting a other
  · rw [hkept.depth, hkept.visiting, hb.depth]
  · rw [hkept.limits, hb.limits]
    exact h.limits.symm
  · have hleft : (s'.1.guard.leave task).depth = 0 := by
      rw [(hg.leave h.guard).depth, hb.depth, ← hkept.visiting, hv]
      rfl
    show (s'.1.guard.leave task).rested.iterations = 0 ∧
        (s'.1.guard.leave task).rested.exceeded = false
    rw [Guard.rested, if_pos hleft]
    exact ⟨rfl, rfl⟩

end Memo

/-- A task that is not known yet, as it is worked on. -/
theorem turns_computed {task : Task} {compute : EvalM TypeId} (hb : Balanced s.1)
    (hm : s.1.memo.get? task = none)
    (hc : ∀ g, Guard.Inside task s.1.guard g →
      Leads Turns compute (begun s task g) fun _ _ => True) :
    Leads Turns (retrieve task compute) s fun a s' =>
      s.1.guard.visiting = [] → s.1.limits.Positive → Recalls s'.1 task a := by
  -- the guard refuses no visit while it is as good as new
  have hfirst (hl : s.1.limits.Positive) (hv : s.1.guard.visiting = []) :
      (s.1.guard.enter task).1 = .entered := by
    apply Guard.enter_first _ hv
    · rw [hb.depth, hv]
      rfl
    · exact (hb.fresh hl hv).1
    · exact hb.limits ▸ hl
  unfold Leads
  rw [run_retrieve hm]
  rcases Guard.enter_cases s.1.guard task with ⟨he, hi⟩ | ⟨_, hv, _⟩ | ⟨he, _, hk⟩
  · simp only [he]
    exact ⟨turns_finished hb hi hm (hc _ hi).1 _, fun _ _ => recalls_answer⟩
  · obtain ⟨p, r, hr⟩ := (hb.visiting task).mp hv
    cases hm.symm.trans hr
  · have hlate (hl : s.1.limits.Positive) (hv : s.1.guard.visiting = []) : False := by
      rcases he with he | he <;> cases he.symm.trans (hfirst hl hv)
    rcases he with he | he
    all_goals
      simp only [he]
      exact ⟨turns_refused hb hk fun hl hv => hlate hl hv, fun hv hl => (hlate hl hv).elim⟩

/-- A task may be asked for if it does not run without a placeholder. The first one to be asked for
is answered for good. -/
theorem turns_memoized {task : Task} {compute : EvalM TypeId} (hb : Balanced s.1)
    (ht : ∀ r, s.1.memo.get? task ≠ some (.running none r))
    (hc : ∀ s₁ : State, Balanced s₁.1 → s₁.1.memo.get? task = some (.running none false) →
      (∀ other, other ≠ task → s₁.1.memo.get? other = s.1.memo.get? other) →
      Leads Turns compute s₁ fun _ _ => True) :
    Leads Turns (memoized task compute) s fun a s' =>
      s.1.guard.visiting = [] → s.1.limits.Positive → Recalls s'.1 task a := by
  have hb₀ : Balanced (asked s task).1 := hb.asked ht
  apply leads_memoized
  · exact ⟨.same rfl fun _ => .refl _, .refl _, rfl, id, fun _ => hb₀⟩
  · cases hm : s.1.memo.get? task with
    | none =>
      apply turns_computed hb₀ hm
      intro g hg
      apply hc _ (hb₀.begun hg) ((Dict.get?_insert ..).trans (if_pos rfl))
      intro other hne
      exact (Dict.get?_insert ..).trans (if_neg hne)
    | some progress =>
      apply leads_retrieve
      · intro a ha
        exact ⟨Evolution.refl _, fun _ _ => ha⟩
      · intro r hr
        exact absurd hr (ht r)
      · intro p r hr
        refine ⟨turns_again hb₀ hr, fun hv => ?_⟩
        have hmem : task ∈ s.1.guard.visiting := (hb.visiting task).mpr ⟨_, _, hr⟩
        rw [hv] at hmem
        cases hmem
      · intro hn
        cases hm.symm.trans hn
      · intro hn
        cases hm.symm.trans hn

theorem turns_distribute {v : TypeId} {f : TypeId → EvalM TypeId}
    (hf : ∀ x s', Turns s s' → Leads Turns (f x) s' fun _ _ => True) :
    Leads Turns (Store.distribute v f) s fun _ _ => True := by
  apply Store.leads_distribute Prod.snd (A := fun _ _ _ => True) rfl
  · exact fun _ _ _ _ _ _ _ => trivial
  · exact fun x _ s' h' => hf x s' h'
  · exact fun _ => trivial
  · exact fun _ _ _ _ _ _ => trivial
  · intro ys s' _ _ _
    exact turns_store rfl
      (Discipline.runs_mkUnion (Discipline.good_free s'.2) fun t _ =>
        Discipline.fit_free s'.2 t).leads.1

/-- A conditional does not run while its branch is chosen for another subject. -/
theorem turns_conditionalMember (hb : Balanced s.1) (hm : Mappings s.1) (id : ConditionalId)
    (x : TypeId) :
    Leads Turns (conditionalMember id x) s fun a s' =>
      s.1.guard.visiting = [] → s.1.limits.Positive → Recalls s'.1 ⟨.conditional id, x⟩ a := by
  unfold conditionalMember
  apply leads_getStore
  apply turns_memoized hb
  · intro r hr
    obtain ⟨_, he⟩ := hm _ ⟨_, _, hr⟩
    cases he
  · intro s₁ _ _ _
    have hparts (st : Store) (c : Conditional) : Parts (Discipline.rules .free) c st :=
      ⟨Discipline.fit_free _ _, Discipline.fit_free _ _, Discipline.fit_free _ _⟩
    exact turns_store (run_chooseBranch ..)
      (runs_branch (Discipline.good_free s₁.2) (Discipline.fit_free s₁.2 x) s₁.1.limits
        (hparts _ _)).leads.1

theorem turns_conditional (hb : Balanced s.1) (hm : Mappings s.1) (id : ConditionalId)
    (v : TypeId) :
    Leads Turns (applyConditional id v) s fun _ _ => True := by
  have hmember (x : TypeId) (s' : State) (h' : Turns s s') :
      Leads Turns (conditionalMember id x) s' fun _ _ => True :=
    (turns_conditionalMember (h'.balanced hb) (hm.later h' hb) id x).mono fun _ _ _ _ => trivial
  unfold applyConditional
  apply leads_getStore
  split
  · exact turns_distribute hmember
  · exact hmember v s (Evolution.refl s)

section Mapping

variable {member : TypeId → EvalM TypeId}
variable (hmember : ∀ s, Balanced s.1 → Open s.1 → ∀ x, Leads Turns (member x) s fun _ _ => True)

include hmember

theorem turns_mapValue {mapping : Mapping} (hb : Balanced s.1) (hm : Mappings s.1)
    (ho : mapping.value = .deep → Open s.1) (v : TypeId) :
    Leads Turns (mapValue mapping member v) s fun _ _ => True := by
  unfold mapValue
  split
  · exact Leads.pure trivial
  · exact turns_conditional hb hm _ v
  · rename_i hd
    apply turns_distribute
    intro x s' h'
    have hopen := (ho hd).later h' hb
    rw [mapInner_eq]
    apply leads_getStore
    split
    · exact hmember s' (h'.balanced hb) hopen x
    · exact Leads.pure trivial

/-- A mapping asks for nothing but its values, which may be deep only if all that runs has a
placeholder. -/
theorem turns_mapStructure (mapping : Mapping) (hb : Balanced s.1) (hm : Mappings s.1)
    (ho : mapping.value = .deep → Open s.1) (n : TypeId) :
    Leads Turns (mapStructure mapping member n) s fun _ _ => True := by
  have hvalues (s' : State) (h' : Turns s s') (c : TypeId) (_ : c ∈ s.2.mentions n) :
      Leads Turns (mapValue mapping member c) s' fun _ _ => True :=
    turns_mapValue hmember (h'.balanced hb) (hm.later h' hb) (fun hd => (ho hd).later h' hb) c
  exact (leads_mapBuilt (r := Discipline.rules .free) (R := fun _ _ _ => True) (fun h => h.store)
    .lift (fun _ _ _ _ _ _ _ => trivial) (fun _ => Discipline.fit_free _ _)
    (Discipline.good_free s.2) hvalues).mono fun _ _ _ _ => trivial

omit hmember in
theorem turns_opened {task : Task} (hm : s.1.memo.get? task = some (.running none false)) :
    Leads Turns (openFixedPoint task) s fun _ s' =>
      s'.1.memo.get? task = some (.running (some s.2.size) false) ∧
        s'.2.cells[s.2.size]? = some (.reserved none) := by
  have hr : Running s.1 task := ⟨_, _, hm⟩
  obtain ⟨hopened, hpost⟩ :=
    leads_opened (r := Discipline.rules .free) (fun h => by cases h) (ready_free s) hm
  exact ⟨⟨hopened, .refl _, rfl, (recalls_noted hr).mpr, fun hb => hb.noted (s := (s.1, _)) hr⟩,
    hpost⟩

omit hmember in
theorem spares_turns : Spares Turns where
  cell h _ hp := h.store.grown.cell hp
  running h _ _ _ hm := h.running hm

/-- While a mapping works through a fixed point, all that runs has a placeholder. -/
theorem turns_fixedPoint {task : Task} {mapping : Mapping} (hb : Balanced s.1)
    (hmappings : Mappings s.1) (hm : s.1.memo.get? task = some (.running none false))
    (ho : ∀ other r, other ≠ task → s.1.memo.get? other ≠ some (.running none r)) (n : TypeId) :
    Leads Turns (openFixedPoint task >>= fun _ => mapStructure mapping member n >>=
      closeFixedPoint task)
      s fun _ _ => True := by
  obtain ⟨h₁, hm₁, hcell⟩ := turns_opened hm
  have hopen : Open (Action.run (openFixedPoint task) s).2.1 := by
    refine ⟨hmappings.later h₁ hb, fun {other r} hr => ?_⟩
    by_cases he : other = task
    · rw [he, hm₁] at hr
      cases hr
    · refine ho other r he ?_
      rw [← hr]
      exact ((Dict.get?_insert ..).trans (if_neg he)).symm
  have hwork := turns_mapStructure hmember mapping (h₁.balanced hb) hopen.mappings
    (fun _ => hopen) n
  apply leads_throughFixedPoint spares_turns ⟨h₁, hm₁, hcell⟩ hwork
  · exact fun _ _ _ _ => trivial
  · intro a s' body h' _ _ hcell hbody
    have hfilled := h'.toUpholds.filled (fun h => by cases h) (ready_free s') (Nat.le_refl _)
      hcell hbody fun h => by cases h
    exact ⟨⟨hfilled, h'.guard, h'.limits, h'.done, h'.balanced⟩, trivial⟩

/-- A task that was asked for from rest is remembered. -/
theorem turns_mapMember (hb : Balanced s.1) (ho : Open s.1) (id : MappingId) (n : TypeId) :
    Leads Turns (mapMember id member n) s fun a s' =>
      s.1.guard.visiting = [] → s.1.limits.Positive → Recalls s'.1 ⟨.mapping id, n⟩ a := by
  apply turns_memoized hb (fun _ => ho.placeholder)
  intro s₁ hb₁ hm₁ hother
  have hmappings : Mappings s₁.1 := by
    rintro other ⟨p, r, hr⟩
    by_cases he : other = ⟨.mapping id, n⟩
    · exact ⟨id, by rw [he]⟩
    · exact ho.mappings other ⟨p, r, hother other he ▸ hr⟩
  apply leads_getStore
  dsimp only
  split
  · apply turns_fixedPoint hmember hb₁ hmappings hm₁
    intro other r he
    rw [hother other he]
    exact ho.placeholder
  · rename_i hd
    exact turns_mapStructure hmember _ hb₁ hmappings (fun h => absurd h hd) n

end Mapping

theorem turns_descend (hb : Balanced s.1) (ho : Open s.1) (id : MappingId) (room : Nat)
    (n : TypeId) :
    Leads Turns (descend (mapMember id) (fun _ => return .never) room n) s fun a s' =>
      s.1.guard.visiting = [] → s.1.limits.Positive → Recalls s'.1 ⟨.mapping id, n⟩ a := by
  have hlevel (room : Nat) : ∀ s : State, Balanced s.1 → Open s.1 → ∀ x,
      Leads Turns (descend (mapMember id) (fun _ => return .never) room x) s fun _ _ => True := by
    apply descend_induction (motive := fun f => ∀ s : State, Balanced s.1 → Open s.1 → ∀ x,
      Leads Turns (f x) s fun _ _ => True)
    · exact fun _ _ _ _ => Leads.pure trivial
    · intro f hf s hb ho x
      exact (turns_mapMember hf hb ho id x).mono fun _ _ _ _ => trivial
  cases room with
  | zero => exact turns_mapMember (fun _ _ _ _ => Leads.pure trivial) hb ho id n
  | succ room => exact turns_mapMember (hlevel room) hb ho id n

theorem turns_mapping (hb : Balanced s.1) (ho : Open s.1) (id : MappingId) (v : TypeId) :
    Leads Turns (applyMapping id v) s fun _ _ => True := by
  unfold applyMapping
  apply leads_get
  apply turns_distribute
  intro x s' h'
  exact (turns_descend (h'.balanced hb) (ho.later h' hb) id _ x).mono fun _ _ _ _ => trivial

structure Resting (e : Evaluator) : Prop extends Balanced e where
  idle : e.guard.visiting = []

theorem Resting.not_running (h : Resting s.1) (task : Task) : ¬ Running s.1 task := by
  rw [← h.visiting, h.idle]
  exact List.not_mem_nil

theorem Resting.opened (h : Resting s.1) : Open s.1 :=
  ⟨fun task hr => absurd hr (h.not_running task), fun {task _} hm => h.not_running task ⟨_, _, hm⟩⟩

theorem Resting.later (h : Resting s.1) (hs : Turns s s') : Resting s'.1 :=
  ⟨hs.balanced h.toBalanced, hs.guard.visiting.trans h.idle⟩

/-- An evaluator at rest recalls what it is asked for, or works it out and remembers the answer. -/
theorem run_memoized (h : Resting s.1) (hl : s.1.limits.Positive) (task : Task)
    {compute : EvalM TypeId} {a : TypeId} {st' : Store}
    (hc : ∀ e : Evaluator, e.limits = s.1.limits → Action.run compute (e, s.2) = (a, e, st')) :
    (∃ b, Recalls s.1 task b ∧ Action.run (memoized task compute) s = (b, asked s task)) ∨
      ∃ e : Evaluator, Action.run (memoized task compute) s = (a, e, st') ∧ Recalls e task a ∧
        ∀ other, other ≠ task → e.memo.get? other = s.1.memo.get? other := by
  have hrun : Action.run (memoized task compute) s =
      Action.run (retrieve task compute) (asked s task) := rfl
  rw [hrun]
  cases hm : s.1.memo.get? task with
  | none =>
    right
    have henter : ((asked s task).1.guard.enter task).1 = .entered := by
      apply Guard.enter_first (h.limits ▸ hl) h.idle
      · rw [h.depth, h.idle]
        rfl
      · exact (h.fresh hl h.idle).1
    have hnone : (asked s task).1.memo.get? task = none := hm
    have hcompute := hc (begun (asked s task) task (s.1.guard.enter task).2).1 rfl
    rw [run_retrieve hnone]
    simp only [henter, hcompute]
    refine ⟨_, rfl, (Dict.get?_insert ..).trans (if_pos rfl), fun other hne => ?_⟩
    exact ((Dict.get?_insert ..).trans (if_neg hne)).trans
      ((Dict.get?_insert ..).trans (if_neg hne))
  | some progress =>
    cases progress with
    | running p r => exact absurd ⟨p, r, hm⟩ (h.not_running task)
    | done b =>
      refine .inl ⟨b, hm, ?_⟩
      have hget : Action.run (get : EvalM Evaluator) (asked s task) =
          ((asked s task).1, asked s task) := rfl
      unfold retrieve
      rw [Action.run_bind, hget]
      simp only [hm]
      rfl

theorem turns_operator (h : Resting s.1) (operator : Operator) (v : TypeId) :
    Leads Turns (applyOperator operator v) s fun _ _ => True := by
  cases operator with
  | conditional id => exact turns_conditional h.toBalanced h.opened.mappings id v
  | mapping id => exact turns_mapping h.toBalanced h.opened id v

/-- Whatever an evaluator is asked to do comes to its end. -/
theorem Works.turns (h : Resting s.1) (hw : Works .free s s') : Turns s s' := by
  induction hw with
  | refl => exact Evolution.refl s
  | tail _ hw ih =>
    apply Evolution.trans ih
    cases hw with
    | store h => exact .lift h
    | applied operator _ _ => exact (turns_operator (h.later ih) operator _).1

theorem Call.turns (h : Resting s.1) (call : Call) : Turns s (Action.run call.act s).2 := by
  have haccepted : call.Accepted .free s.2 :=
    ⟨fun t _ => Discipline.fit_free s.2 t, fun h => absurd rfl h, fun h => by cases h⟩
  exact (call.worked (fun h => by cases h) (ready_free s) haccepted).1.turns h

/-- An evaluator that knows nothing and visits nothing. -/
theorem Resting.blank {e : Evaluator} (hm : e.memo = .empty) (hg : e.guard.reset = e.guard)
    (hl : e.guard.limits = e.limits) (ho : e.limits.Positive → e.observed) : Resting e := by
  have hvisiting : e.guard.visiting = [] := by rw [← hg]; rfl
  refine ⟨⟨fun task => ?_, ?_, hl, fun _ _ => ?_, ho⟩, hvisiting⟩
  · rw [hvisiting, Running, hm]
    exact ⟨(fun h => by cases h), fun ⟨_, _, h⟩ => by cases h⟩
  · rw [← hg]
    rfl
  · rw [← hg]
    exact ⟨rfl, rfl⟩

/-- How an evaluator with its own limits can have come about: it is called and cleared, and between
its calls the store may become any other. -/
inductive Employed (limits : Limits) : State → Prop
  | start (st : Store) : Employed limits (start limits, st)
  | store {s : State} (st : Store) (h : Employed limits s) : Employed limits (s.1, st)
  | call {s : State} (call : Call) (h : Employed limits s) :
    Employed limits (Action.run call.act s).2
  | clear {s : State} (h : Employed limits s) : Employed limits (s.1.clear, s.2)

/-- Whatever it is asked to do, between calls no task runs. -/
theorem Employed.resting {limits : Limits} (h : Employed limits s) :
    Resting s.1 ∧ s.1.limits = limits := by
  induction h with
  | start st => exact ⟨.blank rfl rfl rfl fun _ => trivial, rfl⟩
  | store _ _ ih => exact ih
  | call call _ ih =>
    have hturns := call.turns ih.1
    exact ⟨ih.1.later hturns, hturns.limits.trans ih.2⟩
  | clear _ ih => exact ⟨.blank rfl rfl ih.1.limits ih.1.observed, ih.2⟩

/-- An evaluator whose limits let a visit begin is at rest between its calls: no task runs, and its
guard is as good as new. Each time a task was asked for during its calls, the tasks that ran were
those being visited, and neither the memo nor the guard had to answer for want of anything better;
the tasks that were asked for while nothing else ran had the full number of visits before them. -/
theorem Employed.at_rest {limits : Limits} (hl : limits.Positive) (h : Employed limits s) :
    (∀ task, ¬ Running s.1 task) ∧ s.1.guard.visiting = [] ∧ s.1.guard.depth = 0 ∧
      s.1.guard.iterations = 0 ∧ s.1.guard.exceeded = false ∧ s.1.observed := by
  obtain ⟨hrest, rfl⟩ := h.resting
  obtain ⟨hi, he⟩ := hrest.fresh hl hrest.idle
  refine ⟨hrest.not_running, hrest.idle, ?_, hi, he, hrest.observed hl⟩
  rw [hrest.depth, hrest.idle]
  rfl

/-- Trees, mapped to all depths by an evaluator that may not go so deep. -/
def shallowTrees : State := (Action.run (Call.mapping 0 12).act (start ⟨1, 2⟩, trees)).2

theorem Employed.at_rest_shallowTrees :
    (⟨1, 2⟩ : Limits).Positive ∧ shallowTrees.1.guard.overrun = true ∧
      (∀ task, ¬ Running shallowTrees.1 task) ∧ shallowTrees.1.guard.visiting = [] ∧
      shallowTrees.1.guard.depth = 0 ∧ shallowTrees.1.guard.iterations = 0 ∧
      shallowTrees.1.guard.exceeded = false ∧ shallowTrees.1.observed := by
  have hlimits : (⟨1, 2⟩ : Limits).Positive := ⟨by decide, by decide⟩
  have hemployed : Employed ⟨1, 2⟩ shallowTrees := .call _ (.start trees)
  exact ⟨hlimits, by decide +kernel, Employed.at_rest hlimits hemployed⟩

end Evaluator

end TypeCalculus
