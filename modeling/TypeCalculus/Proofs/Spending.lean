import TypeCalculus.Proofs.Effort
import TypeCalculus.Proofs.Remembering

namespace TypeCalculus

namespace Evaluator

open Discipline (Fit Evolves)
open Effort (explore)

variable {s s' : State}

def effort (e : Evaluator) : Effort where
  known task := (e.memo.get? task).isSome
  visits := e.guard.iterations
  overrun := e.guard.overrun

structure Follows (s s' : State) : Prop extends Upholds (Discipline.rules .free) s s' where
  guard : s.1.guard.Kept s'.1.guard
  known {task : Task} : (s.1.memo.get? task).isSome = true → (s'.1.memo.get? task).isSome = true

instance : Evolution Follows where
  refl s := ⟨Evolution.refl s, .refl _, id⟩
  trans h h' := ⟨Evolution.trans h.toUpholds h'.toUpholds, h.guard.trans h'.guard,
    fun hk => h'.known (h.known hk)⟩

theorem Follows.lift {st' : Store} (h : Evolves .free s.2 st') : Follows s (s.1, st') :=
  ⟨.lift h, .refl _, id⟩

structure HasRoom (base : Store) (room : Nat) (s : State) : Prop where
  carries : base.Carries s.2
  noted {task : Task} : task ∈ s.1.guard.visiting → (s.1.memo.get? task).isSome = true
  balanced : s.1.guard.depth = s.1.guard.visiting.length
  depth : s.1.guard.depth + room = s.1.guard.limits.depth

variable {base : Store} {room : Nat}

theorem HasRoom.later (h : HasRoom base room s) (hs : Follows s s') : HasRoom base room s' where
  carries := h.carries.trans hs.store.grown.carries
  noted hv := hs.known (h.noted (hs.guard.visiting ▸ hv))
  balanced := by
    rw [hs.guard.depth, hs.guard.visiting]
    exact h.balanced
  depth := by
    rw [hs.guard.depth, hs.guard.limits]
    exact h.depth

/-- The action costs as much as working on the tasks does. -/
def Spends {α : Type} (base : Store) (room : Nat) (tasks : List Task) (act : EvalM α) (s : State) :
    Prop :=
  Leads Follows act s fun _ s' =>
    effort s'.1 = tasks.foldl (explore s.1.guard.limits base.subtasks room) (effort s.1)

section Actions

variable {α β : Type} {tasks more : List Task}

theorem spends_pure (a : α) : Spends base room [] (pure a : EvalM α) s := Leads.pure rfl

/-- The costs of two actions add up. -/
theorem Spends.bind {x : EvalM α} {f : α → EvalM β} (hx : Spends base room tasks x s)
    (hf : ∀ a s', Follows s s' → Spends base room more (f a) s') :
    Spends base room (tasks ++ more) (x >>= f) s := by
  apply Leads.bind hx
  intro a s' h' he
  apply (hf a s' h').mono
  intro b s'' _ he'
  rw [he', he, h'.guard.limits, List.foldl_append]

theorem Spends.map {x : EvalM α} (hx : Spends base room tasks x s) (f : α → β) :
    Spends base room tasks (x >>= fun a => pure (f a)) s :=
  Leads.bind hx fun _ _ _ he => Leads.pure he

theorem Spends.mapM {f : α → EvalM β} {g : α → List Task} {xs : List α}
    (hf : ∀ x ∈ xs, ∀ s', Follows s s' → Spends base room (g x) (f x) s') :
    Spends base room (xs.flatMap g) (xs.mapM f) s := by
  induction xs generalizing s with
  | nil =>
    rw [List.mapM_nil]
    exact spends_pure []
  | cons x xs ih =>
    rw [List.mapM_cons, List.flatMap_cons]
    apply (hf x (by simp) s (Evolution.refl s)).bind
    intro y s' h'
    apply Spends.map
    apply ih
    intro z hz s'' h''
    exact hf z (by simp [hz]) s'' (Evolution.trans h' h'')

/-- Actions on the store cost nothing. -/
theorem spends_store {act : EvalM α} {a : α} {st' : Store} (hrun : Action.run act s = (a, s.1, st'))
    (h : Evolves .free s.2 st') : Spends base room [] act s := by
  unfold Spends Leads
  rw [hrun]
  exact ⟨.lift h, rfl⟩

theorem Spends.store {x : EvalM α} {f : α → StoreM β} (hx : Spends base room tasks x s)
    (hf : ∀ a st, Evolves .free st (Action.run (f a) st).2) :
    Spends base room tasks (x >>= fun a => liftM (f a)) s := by
  rw [← List.append_nil tasks]
  apply hx.bind
  intro a s' _
  exact spends_store rfl (hf a s'.2)

theorem evolves_mkUnion (ts : List TypeId) (st : Store) :
    Evolves .free st (Action.run (Store.mkUnion ts) st).2 :=
  (Discipline.runs_mkUnion (Discipline.good_free st) fun t _ => Discipline.fit_free st t).leads.1

/-- To distribute an action costs as much as its members do. -/
theorem spends_distribute {v : TypeId} {f : TypeId → EvalM TypeId} {g : TypeId → List Task}
    (hf : ∀ x ∈ s.2.unionMembers v, ∀ s', Follows s s' → Spends base room (g x) (f x) s') :
    Spends base room ((s.2.unionMembers v).flatMap g) (Store.distribute v f) s := by
  have hread : Action.run (liftM (get : StoreM Store) : EvalM Store) s = (s.2, s) := rfl
  unfold Spends Store.distribute Leads
  rw [Action.run_bind, hread]
  split
  · rename_i h
    rw [h]
    exact spends_pure _
  · rename_i x h
    rw [h, List.flatMap_cons, List.flatMap_nil, List.append_nil]
    exact hf x (by simp [h]) s (Evolution.refl s)
  · exact (Spends.mapM hf).store evolves_mkUnion

end Actions

section Memo

variable {task : Task}

theorem effort_noted (s : State) {p : Progress} (hk : (s.1.memo.get? task).isSome = true) :
    effort (noted s task p).1 = effort s.1 := by
  have hknown : (effort (noted s task p).1).known = (effort s.1).known := by
    funext other
    show ((s.1.memo.insert task p).get? other).isSome = _
    rw [Dict.get?_insert]
    split
    · rename_i he
      rw [he]
      exact hk.symm
    · rfl
  show Effort.mk (effort (noted s task p).1).known _ _ = _
  rw [hknown]
  rfl

theorem Follows.noted {p : Progress} (h : Follows s s')
    (hs : Upholds (Discipline.rules .free) s (noted s' task p)) :
    Follows s (noted s' task p) := by
  refine ⟨hs, h.guard, fun {other} hk => ?_⟩
  rw [Dict.get?_insert]
  split
  · rfl
  · exact h.known hk

theorem effort_begun {g : Guard Task} (hi : g.iterations = (effort s.1).visited.visits)
    (ho : g.overrun = s.1.guard.overrun) :
    effort (begun s task g).1 = (effort s.1).learned task := by
  have hknown : (effort (begun s task g).1).known = ((effort s.1).learned task).known := by
    funext other
    show ((s.1.memo.insert task _).get? other).isSome = (decide (other = task) || _)
    rw [Dict.get?_insert]
    split
    · rename_i he
      simp [he]
    · rename_i he
      simp [he, effort]
  show Effort.mk (effort (begun s task g).1).known g.iterations g.overrun = _
  rw [hknown, hi, ho]
  rfl

/-- At the outermost level the visits start anew. -/
theorem effort_finished {g : Guard Task} (hr : HasRoom base room s)
    (hg : Guard.Inside task s.1.guard g) (hk : g.Kept s'.1.guard)
    (hknown : (s'.1.memo.get? task).isSome = true) {a : TypeId} :
    effort (finished s' task a).1 = (effort s'.1).rested s.1.guard.limits room := by
  have hleft : (s'.1.guard.leave task).depth = s.1.guard.depth := (hg.leave hk).depth
  have hsame := congrArg Effort.known (effort_noted s' (p := .done a) hknown)
  have htop : s.1.guard.depth = 0 ↔ room = s.1.guard.limits.depth := by
    have := hr.depth
    omega
  show Effort.mk (effort (noted s' task (.done a)).1).known
    (s'.1.guard.leave task).rested.iterations (s'.1.guard.leave task).rested.overrun = _
  rw [hsame, Guard.rested_overrun, Guard.leave_overrun]
  unfold Guard.rested Effort.rested
  by_cases h : s.1.guard.depth = 0
  · rw [if_pos (hleft.trans h), if_pos (htop.mp h)]
    rfl
  · rw [if_neg (fun h' => h (hleft.symm.trans h')), if_neg (fun h' => h (htop.mpr h')),
      Guard.leave_iterations]
    rfl

theorem hasRoom_begun (hr : HasRoom base (room + 1) s) {g : Guard Task}
    (hg : Guard.Inside task s.1.guard g) : HasRoom base room (begun s task g) where
  carries := hr.carries
  noted {other} hv := by
    rw [Dict.get?_insert]
    split
    · rfl
    · rename_i hne
      rw [hg.visiting, List.mem_cons, or_iff_right hne] at hv
      exact hr.noted hv
  balanced := by
    rw [hg.depth, hg.visiting, List.length_cons, hr.balanced]
  depth := by
    have := hr.depth
    rw [hg.depth, hg.limits]
    omega

theorem follows_finished (hr : HasRoom base room s) (hm : s.1.memo.get? task = none)
    {g : Guard Task} (hg : Guard.Inside task s.1.guard g) (h : Follows (begun s task g) s')
    (a : TypeId) :
    Follows s (finished s' task a) := by
  refine ⟨(ready_free s).upholds_done hm hg h.toUpholds (Discipline.fit_free s'.2 a),
    (hg.leave h.guard).rested hr.balanced, fun {other} hk => ?_⟩
  rw [Dict.get?_insert]
  split
  · rfl
  · rename_i hne
    apply h.known
    rw [Dict.get?_insert, if_neg hne]
    exact hk

/-- A task costs a visit if it is not known, and then what it leads to. -/
theorem spends_retrieve (hr : HasRoom base room s) {compute : EvalM TypeId}
    (hc : ∀ below, room = below + 1 → ∀ g, HasRoom base below (begun s task g) →
      Spends base below (base.subtasks task) compute (begun s task g)) :
    Spends base room [task] (retrieve task compute) s := by
  cases hm : s.1.memo.get? task with
  | some progress =>
    have hsome : (s.1.memo.get? task).isSome = true := by rw [hm]; rfl
    have hknown : (effort s.1).known task = true := hsome
    apply leads_retrieve
    · intro a _
      exact ⟨Evolution.refl s, (Effort.explore_known hknown).symm⟩
    · intro r _
      exact ⟨Evolution.refl s, (Effort.explore_known hknown).symm⟩
    · intro p r hp
      refine ⟨(Evolution.refl s : Follows s s).noted (upholds_again hp), ?_⟩
      rw [List.foldl_cons, List.foldl_nil, Effort.explore_known hknown]
      exact effort_noted s hsome
    · intro hn
      cases hm.symm.trans hn
    · intro hn
      cases hm.symm.trans hn
  | none =>
    have hknown : (effort s.1).known task = false := by
      show (s.1.memo.get? task).isSome = false
      rw [hm]
      rfl
    have hnew : task ∉ s.1.guard.visiting := by
      intro hv
      have := hr.noted hv
      rw [hm] at this
      cases this
    have hdepth := hr.depth
    have hrefused {g : Guard Task} (hg : s.1.guard.Kept g) :
        Follows s ({ s.1 with guard := g }, s.2) :=
      ⟨.same rfl fun _ => hg, hg, id⟩
    unfold Spends Leads
    rw [run_retrieve hm, List.foldl_cons, List.foldl_nil]
    by_cases hi : s.1.guard.limits.iterations < (effort s.1).visited.visits
    · rw [Guard.enter_counted hi, Effort.explore_refused hknown (.inr hi)]
      exact ⟨hrefused ⟨rfl, rfl, rfl, fun _ => rfl, rfl⟩, rfl⟩
    · cases room with
      | zero =>
        rw [Guard.enter_deep hi (by omega), Effort.explore_refused hknown (.inl rfl)]
        exact ⟨hrefused ⟨rfl, rfl, rfl, fun _ => rfl, rfl⟩, rfl⟩
      | succ below =>
        obtain ⟨g, he, hg, hvisits, hover⟩ := Guard.enter_new hi (by omega) hnew
        rw [he, Effort.explore_entered hknown hi]
        obtain ⟨hfollows, heffort⟩ := hc below rfl g (hasRoom_begun hr hg)
        have hbegun : ((begun s task g).1.memo.get? task).isSome = true := by
          rw [Dict.get?_insert, if_pos rfl]
          rfl
        have hstill := hfollows.known hbegun
        refine ⟨follows_finished hr hm hg hfollows _, ?_⟩
        apply (effort_finished hr hg hfollows.guard hstill).trans
        rw [heffort, effort_begun hvisits hover, ← hg.limits]

theorem spends_memoized (hr : HasRoom base room s) {compute : EvalM TypeId}
    (hc : ∀ below, room = below + 1 → ∀ s₁ : State, s₁.2 = s.2 → HasRoom base below s₁ →
      s₁.1.memo.get? task = some (.running none false) →
      Spends base below (base.subtasks task) compute s₁) :
    Spends base room [task] (memoized task compute) s := by
  apply leads_memoized
  · exact ⟨.same rfl fun _ => .refl _, .refl _, id⟩
  · have hr : HasRoom base room (asked s task) := ⟨hr.carries, hr.noted, hr.balanced, hr.depth⟩
    apply spends_retrieve hr
    intro below hroom g hr'
    exact hc below hroom _ rfl hr' ((Dict.get?_insert ..).trans (if_pos rfl))

end Memo

section Conditional

variable {id : ConditionalId} (hr : HasRoom base room s)

include hr

theorem spends_conditionalMember (x : TypeId) :
    Spends base room [⟨.conditional id, x⟩] (conditionalMember id x) s := by
  unfold conditionalMember
  apply leads_getStore
  apply spends_memoized hr
  intro below _ s₁ he _ _
  have hparts := parts_conditional (r := Discipline.rules .free) (fun h => by cases h)
    (Discipline.good_free s₁.2) id
  rw [← he]
  exact spends_store (run_chooseBranch ..)
    (runs_branch (Discipline.good_free s₁.2) (Discipline.fit_free s₁.2 x) s₁.1.limits
      hparts).leads.1

/-- A conditional costs what its targets cost. -/
theorem spends_conditional (ha : base.Anchored) (hid : base.SolidConditional id) {v : TypeId}
    (hv : base.Solid v) :
    Spends base room ((base.targets id v).map (Task.mk (.conditional id)))
      (applyConditional id v) s := by
  have hsame := hr.carries.conditional hid.has
  unfold applyConditional Store.targets
  apply leads_getStore
  rw [hsame]
  split
  · have hmembers := hv.unionMembers_widens ha hr.carries.toWidens
    rw [← hmembers, List.map_eq_flatMap]
    apply spends_distribute
    intro x _ s' h'
    exact spends_conditionalMember (hr.later h') x
  · exact spends_conditionalMember hr v

end Conditional

section Structure

variable {mapping : Mapping} {member : TypeId → EvalM TypeId} {tasks : TypeId → List Task}
variable {parts : List TypeId}
variable (hmap : ∀ s', Follows s s' → ∀ c ∈ parts,
  Spends base room (tasks c) (mapValue mapping member c) s')

include hmap

/-- Mapping a type costs what mapping its values does, in order. -/
theorem spends_mapStructure {n : TypeId} (hparts : ∀ c ∈ s.2.mentions n, c ∈ parts) :
    Spends base room (((s.2.form? n).toList.flatMap mapping.values).flatMap tasks)
      (mapStructure mapping member n) s := by
  -- what has been spent on the values that have been mapped so far
  let spent (done : List TypeId) (s' : State) : Prop := effort s'.1 =
    (done.flatMap tasks).foldl (explore s.1.guard.limits base.subtasks room) (effort s.1)
  have hvalues (f : Form) (hf : s.2.form? n = some f) :
      MapsValues Follows spent (fun _ _ _ => True) mapping member f s := by
    refine ⟨fun _ _ _ _ _ _ _ => trivial, fun {v} hv {done s'} h' hspent => ?_⟩
    have hmem := hparts v (Store.mentions_of_form hf ▸ Mapping.values_mentions hv)
    apply (hmap s' h' v hmem).mono
    intro a s'' _ he
    refine ⟨?_, trivial⟩
    show effort s''.1 = _
    rw [he, hspent, h'.guard.limits, List.flatMap_append, List.flatMap_singleton, List.foldl_append]
  have hnone : spent [] s := rfl
  apply (MapsValues.leads (B := fun _ _ _ => True) hvalues hnone fun f y s' _ _ hspent _ =>
    leads_lift (.lift (y.evolves_build s'.2)) ⟨hspent, trivial⟩).mono
  rintro a s' _ (⟨f, hf, hspent, _⟩ | ⟨hu, _, rfl⟩)
  · rw [hf, Option.toList_some, List.flatMap_singleton]
    exact hspent
  · rw [hu.values]
    rfl

end Structure

def Costs (base : Store) (id : MappingId) (room : Nat) (member : TypeId → EvalM TypeId) : Prop :=
  ∀ s, HasRoom base room s → ∀ x, base.Clean ⟨.mapping id, x⟩ →
    Spends base room [⟨.mapping id, x⟩] (member x) s

section Mapping

variable {id : MappingId} {member : TypeId → EvalM TypeId} (ha : base.Anchored)
variable (hmember : Costs base id room member)

include ha hmember

theorem spends_mapValue (hid : base.SolidOperator (.mapping id)) {v : TypeId} (hv : base.Solid v)
    (hr : HasRoom base room s) :
    Spends base room (base.valueTasks id v) (mapValue (base.mapping id) member v) s := by
  cases he : (base.mapping id).value with
  | keep =>
    simp only [mapValue, Store.valueTasks, he]
    exact spends_pure v
  | conditional c =>
    simp only [mapValue, Store.valueTasks, he]
    exact spends_conditional hr ha (hid.2 c he) hv
  | deep =>
    simp only [mapValue, Store.valueTasks, he]
    have hmembers := hv.unionMembers_widens ha hr.carries.toWidens
    have htasks : ((base.unionMembers v).filter base.isContainer).map (Task.mk (.mapping id)) =
        (base.unionMembers v).flatMap fun x =>
          if base.isContainer x then [⟨.mapping id, x⟩] else [] := by
      induction base.unionMembers v with
      | nil => rfl
      | cons x xs ih => cases hx : base.isContainer x <;> simp [hx, ih]
    rw [htasks, ← hmembers]
    apply spends_distribute
    intro x hx s' h'
    have hx : base.Solid x := hv.members (hmembers ▸ hx)
    have hr' := hr.later h'
    rw [mapInner_eq]
    apply leads_getStore
    rw [← Store.isContainer_carries hr'.carries hx]
    show Spends base room _ (if s'.2.isContainer x = true then _ else _) s'
    split
    · exact hmember s' hr' x ⟨hid, hx⟩
    · exact spends_pure x

theorem spends_subtasks {n : TypeId} (hc : base.Clean ⟨.mapping id, n⟩) (hr : HasRoom base room s) :
    Spends base room (base.subtasks ⟨.mapping id, n⟩)
      (mapStructure (base.mapping id) member n) s := by
  have hform := hc.subject.form_widens ha hr.carries.toWidens
  have hmentions := hc.subject.mentions_widens ha hr.carries.toWidens
  have hvalues (s' : State) (h' : Follows s s') (c : TypeId) (hm : c ∈ base.mentions n) :
      Spends base room (base.valueTasks id c) (mapValue (base.mapping id) member c) s' :=
    spends_mapValue ha hmember hc.operator (hc.subject.child hm) (hr.later h')
  show Spends base room (((base.form? n).toList.flatMap _).flatMap _) _ s
  rw [← hform]
  exact spends_mapStructure hvalues fun c hm => hmentions ▸ hm

end Mapping

section FixedPoint

variable {id : MappingId} {member : TypeId → EvalM TypeId} {task : Task}

theorem spares_follows : Spares Follows where
  cell h _ hp := h.store.grown.cell hp
  running h _ _ _ hm := h.running hm

theorem spends_opened (hm : s.1.memo.get? task = some (.running none false)) :
    Leads Follows (openFixedPoint task) s fun _ s' => effort s'.1 = effort s.1 ∧
      s'.1.memo.get? task = some (.running (some s.2.size) false) ∧
        s'.2.cells[s.2.size]? = some (.reserved none) := by
  have hsome : (s.1.memo.get? task).isSome = true := by rw [hm]; rfl
  obtain ⟨hopened, hpost⟩ :=
    leads_opened (r := Discipline.rules .free) (fun h => by cases h) (ready_free s) hm
  have hreserve := (Discipline.leads_reserve .free s.2).1
  refine ⟨Follows.noted (.lift hreserve) hopened, ?_, hpost⟩
  exact effort_noted (s.1, _) hsome

/-- A placeholder costs nothing, whether it is filled in or not. -/
theorem spends_fixedPoint {tasks : List Task} {work : EvalM TypeId}
    (hm : s.1.memo.get? task = some (.running none false))
    (hwork : ∀ s', Follows s s' → Spends base room tasks work s') :
    Spends base room tasks (openFixedPoint task >>= fun _ => work >>= closeFixedPoint task) s := by
  obtain ⟨h₁, he, hopen⟩ := spends_opened hm
  apply leads_throughFixedPoint spares_follows ⟨h₁, hopen⟩ (hwork _ h₁)
  · intro a s' _ hspent
    rw [hspent, he, h₁.guard.limits]
  · intro a s' body h' hspent _ hcell hb
    have hfilled := h'.toUpholds.filled (fun h => by cases h) (ready_free s') (Nat.le_refl _)
      hcell hb fun h => by cases h
    rw [hspent, he, h₁.guard.limits]
    exact ⟨⟨hfilled, h'.guard, h'.known⟩, rfl⟩

theorem costs_mapMember (ha : base.Anchored)
    (h : ∀ below, room = below + 1 → Costs base id below member) :
    Costs base id room (mapMember id member) := by
  intro s hr x hc
  apply spends_memoized hr
  intro below hroom s₁ _ hr' hm
  have hbody (s' : State) (h' : Follows s₁ s') :=
    spends_subtasks ha (h below hroom) hc (hr'.later h')
  apply leads_getStore
  rw [hr'.carries.mapping hc.operator.1]
  dsimp only
  split
  · exact spends_fixedPoint hm hbody
  · exact hbody _ (Evolution.refl _)

/-- Every level of a mapping costs what its task does. -/
theorem costs_descend (ha : base.Anchored) (id : MappingId) (room : Nat) :
    Costs base id room (descend (mapMember id) (fun _ => return .never) room) := by
  apply descend_levels (motive := Costs base id)
  intro room member h
  exact costs_mapMember ha h

end FixedPoint

def openings (st : Store) : Operator → TypeId → List Task
  | .conditional id, v => (st.targets id v).map (Task.mk (.conditional id))
  | .mapping id, v => (st.unionMembers v).map (Task.mk (.mapping id))

/-- Applying an operator costs what the tasks that it comes down to do, whatever has happened to the
store. -/
theorem spends_operator (ha : base.Anchored) {operator : Operator} {v : TypeId}
    (hc : base.Clean ⟨operator, v⟩) (hr : HasRoom base s.1.limits.depth s) :
    Spends base s.1.limits.depth (openings base operator v) (applyOperator operator v) s := by
  cases operator with
  | conditional id => exact spends_conditional hr ha hc.operator hc.subject
  | mapping id =>
    have hmembers := hc.subject.unionMembers_widens ha hr.carries.toWidens
    show Spends base _ ((base.unionMembers v).map _) (applyMapping id v) s
    unfold applyMapping
    apply leads_get
    rw [List.map_eq_flatMap, ← hmembers]
    apply spends_distribute
    intro x hx s' h'
    exact costs_descend ha id _ s' (hr.later h') x ⟨hc.operator, hc.subject.members (hmembers ▸ hx)⟩

end Evaluator

end TypeCalculus
