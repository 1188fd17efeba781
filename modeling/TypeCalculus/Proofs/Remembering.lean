import TypeCalculus.Proofs.Answers

namespace TypeCalculus.Evaluator

def Recalls (e : Evaluator) (task : Task) (a : TypeId) : Prop := e.memo.get? task = some (.done a)

/-- What an evaluator that has been used properly is like. -/
structure Orderly (s : State) : Prop where
  ready : Ready (Discipline.rules .given) s
  known {task : Task} {progress : Progress} : s.1.memo.get? task = some progress → s.2.Knows task
  visiting (task : Task) : task ∈ s.1.guard.visiting ↔ Running s.1 task
  depth : s.1.guard.depth = s.1.guard.visiting.length
  limits : s.1.guard.limits = s.1.limits
  quiet {task : Task} {p : Option TypeId} {r : Bool} : s.1.memo.get? task = some (.running p r) →
    s.2.Clean task → r = false
  solved : s.1.guard.overrun = false → Solved s.2 (Recalls s.1) s.1.limits

structure Advances (s s' : State) : Prop where
  upholds : Upholds (Discipline.rules .given) s s'
  guard : s.1.guard.Kept s'.1.guard
  limits : s'.1.limits = s.1.limits
  done {task : Task} {a : TypeId} : Recalls s.1 task a → Recalls s'.1 task a
  orderly : Orderly s → Orderly s'
  rested : Orderly s → s.1.guard.depth = 0 → s.1.guard.iterations = 0 →
    s'.1.guard.overrun = false → s'.1.guard.iterations = 0

variable {s s' : State}

theorem Orderly.anchored (hs : Orderly s) : s.2.Anchored :=
  hs.ready.good.anchored fun h => by cases h

theorem Orderly.linked (hs : Orderly s) : s.2.Linked := hs.ready.good.linked fun h => by cases h

theorem Orderly.knows_running (hs : Orderly s) {task : Task} (hr : Running s.1 task) :
    s.2.Knows task := by
  obtain ⟨p, r, hm⟩ := hr
  exact hs.known hm

/-- The answers remembered for clean tasks can be relied on. -/
theorem Orderly.recalled_solid (hs : Orderly s) (ho : s.1.guard.overrun = false) {task : Task}
    (hc : s.2.Clean task) {a : TypeId} (hm : Recalls s.1 task a) : s.2.Solid a :=
  (hs.solved ho task a hc hm).2

theorem Orderly.carries (hs : Orderly s) {st' : Store} (h : s.2.Carries st')
    (hd : Ready (Discipline.rules .given) (s.1, st')) : Orderly (s.1, st') where
  ready := hd
  known hm := h.knows (hs.known hm)
  visiting := hs.visiting
  depth := hs.depth
  limits := hs.limits
  quiet hm hc := hs.quiet hm (hc.of_carries h hs.anchored hs.linked (hs.known hm))
  solved ho := (hs.solved ho).carries h hs.anchored hs.linked fun _ _ hm => hs.known hm

namespace Advances

theorem carries (h : Advances s s') : s.2.Carries s'.2 := h.upholds.store.grown.carries

theorem overrun (h : Advances s s') (ho : s'.1.guard.overrun = false) :
    s.1.guard.overrun = false := by
  cases hs : s.1.guard.overrun with
  | false => rfl
  | true => rw [← ho, h.guard.overrun hs]

theorem running (h : Advances s s') (hs : Orderly s) {task : Task} :
    Running s'.1 task ↔ Running s.1 task := by
  rw [← (h.orderly hs).visiting, ← hs.visiting, h.guard.visiting]

/-- Whether a task is clean does not change while others are worked on. -/
theorem clean (h : Advances s s') (hs : Orderly s) {task : Task} (hk : s.2.Knows task) :
    s'.2.Clean task ↔ s.2.Clean task :=
  ⟨fun hc => hc.of_carries h.carries hs.anchored hs.linked hk,
    fun hc => hc.carries h.carries hs.anchored⟩

theorem lift {st' : Store} (h : Discipline.Evolves .given s.2 st') : Advances s (s.1, st') where
  upholds := .lift h
  guard := .refl _
  limits := rfl
  done hm := hm
  orderly hs := hs.carries h.grown.carries ((Upholds.lift h).ready hs.ready)
  rested _ _ hi _ := hi

end Advances

instance : Evolution Advances where
  refl s := ⟨Evolution.refl s, .refl _, rfl, fun h => h, id, fun _ _ hi _ => hi⟩
  trans h h' := {
    upholds := Evolution.trans h.upholds h'.upholds
    guard := h.guard.trans h'.guard
    limits := h'.limits.trans h.limits
    done := fun hm => h'.done (h.done hm)
    orderly := fun hs => h'.orderly (h.orderly hs)
    rested := fun hs hd hi ho => h'.rested (h.orderly hs) (h.guard.depth.trans hd)
      (h.rested hs hd hi (h'.overrun ho)) ho }

/-- No clean task is under way that `task` could lead back to. -/
def Ahead (s : State) (task : Task) : Prop :=
  ∀ r, Running s.1 r → s.2.Clean r → s.2.Clean task ∧ task.subject < r.subject

def Innermost (s : State) (task : Task) : Prop :=
  ∀ r, Running s.1 r → s.2.Clean r → s.2.Clean task ∧ task.subject ≤ r.subject

/-- A clean task leads to clean tasks on smaller subjects, so it never meets one that is under
way. -/
theorem Innermost.ahead {task sub : Task} (h : Innermost s task)
    (hsub : s.2.Clean task → s.2.Clean sub ∧ sub.subject < task.subject) : Ahead s sub := by
  intro r hr hc
  obtain ⟨hclean, hle⟩ := h r hr hc
  obtain ⟨hsub, hlt⟩ := hsub hclean
  exact ⟨hsub, Nat.lt_of_lt_of_le hlt hle⟩

/-- How a task stands to the clean ones under way does not change. -/
theorem Advances.before (h : Advances s s') (hs : Orderly s) {task : Task} (hk : s.2.Knows task)
    {P : Task → Prop} (hb : ∀ r, Running s.1 r → s.2.Clean r → s.2.Clean task ∧ P r) :
    ∀ r, Running s'.1 r → s'.2.Clean r → s'.2.Clean task ∧ P r := by
  intro r hr hc
  have hr := (h.running hs).mp hr
  obtain ⟨hclean, hp⟩ := hb r hr ((h.clean hs (hs.knows_running hr)).mp hc)
  exact ⟨(h.clean hs hk).mpr hclean, hp⟩

theorem Innermost.later {task : Task} (h : Innermost s task) (hs : Orderly s) (hk : s.2.Knows task)
    (hadv : Advances s s') : Innermost s' task :=
  hadv.before hs hk h

/-- A task that may come next may still come after other work. -/
theorem Ahead.later {task : Task} (h : Ahead s task) (hs : Orderly s) (hk : s.2.Knows task)
    (hadv : Advances s s') : Ahead s' task :=
  hadv.before hs hk h

/-- A task that may come next is not under way, if it is clean. -/
theorem Ahead.not_running {task : Task} (h : Ahead s task) (hc : s.2.Clean task) :
    ¬ Running s.1 task :=
  fun hr => Nat.lt_irrefl _ (h task hr hc).2

structure Right (operator : Operator) (P : State → TypeId → TypeId → Prop)
    (x b : TypeId) (s : State) :
    Prop where
  orderly : Orderly s
  knows : s.2.Knows ⟨operator, x⟩
  fit : Discipline.Fit .given s.2 b
  right : s.2.Clean ⟨operator, x⟩ → s.1.guard.overrun = false → P s x b ∧ s.2.Solid b

def Lasting (operator : Operator) (P : State → TypeId → TypeId → Prop) : Prop :=
  ∀ ⦃s s' : State⦄ ⦃x b : TypeId⦄, Advances s s' → Orderly s → s.1.guard.overrun = false →
    s.2.Clean ⟨operator, x⟩ → P s x b → P s' x b

theorem Right.stable {operator : Operator} {P : State → TypeId → TypeId → Prop}
    (hP : Lasting operator P) (x b : TypeId) : Stable Advances (Right operator P x b) := by
  intro s s' h hr
  have hs := hr.orderly
  refine ⟨h.orderly hs, h.carries.knows hr.knows, fit_later hs.ready h.upholds hr.fit,
    fun hc ho => ?_⟩
  have hc := (h.clean hs hr.knows).mp hc
  have ho := h.overrun ho
  obtain ⟨hp, hsolid⟩ := hr.right hc ho
  exact ⟨hP h hs ho hc hp, hsolid.widens hs.anchored h.carries.toWidens⟩

theorem Right.mono {operator : Operator} {P Q : State → TypeId → TypeId → Prop} {x b : TypeId}
    (h : Right operator P x b s) (hpq : s.2.Clean ⟨operator, x⟩ → P s x b → Q s x b) :
    Right operator Q x b s := by
  refine ⟨h.orderly, h.knows, h.fit, fun hc ho => ?_⟩
  obtain ⟨hp, hsolid⟩ := h.right hc ho
  exact ⟨hpq hc hp, hsolid⟩

def Recalled (operator : Operator) (s : State) (x b : TypeId) : Prop := Recalls s.1 ⟨operator, x⟩ b

theorem lasting_recalled (operator : Operator) : Lasting operator (Recalled operator) :=
  fun _ _ _ _ h _ _ _ hm => h.done hm

/-- Remembered answers are remembered on, and solid. -/
theorem Advances.answers (h : Advances s s') (hs : Orderly s) (ho : s.1.guard.overrun = false) :
    ∀ task, s.2.Clean task → ∀ a, Recalls s.1 task a → Recalls s'.1 task a ∧ s.2.Solid a :=
  fun _ hc _ hm => ⟨h.done hm, hs.recalled_solid ho hc hm⟩

abbrev noted (s : State) (task : Task) (progress : Progress) : State :=
  ({ s.1 with memo := s.1.memo.insert task progress }, s.2)

section Memo

variable {task : Task}

/-- Noting something else about a task that is under way leaves all answers as they were. -/
theorem recalls_noted (hr : Running s.1 task) {p : Option TypeId} {r : Bool} {other : Task}
    {a : TypeId} : Recalls (noted s task (.running p r)).1 other a ↔ Recalls s.1 other a := by
  obtain ⟨q, b, hm⟩ := hr
  unfold Recalls
  rw [Dict.get?_insert]
  split
  · rename_i he
    subst he
    simp [hm]
  · rfl

theorem running_noted (hr : Running s.1 task) {p : Option TypeId} {r : Bool} {other : Task} :
    Running (noted s task (.running p r)).1 other ↔ Running s.1 other := by
  unfold Running
  rw [Dict.get?_insert]
  split
  · rename_i he
    subst he
    exact ⟨fun _ => hr, fun _ => ⟨_, _, rfl⟩⟩
  · rfl

theorem Orderly.noted (hs : Orderly s) (hr : Running s.1 task) {p : Option TypeId} {r : Bool}
    (hq : s.2.Clean task → r = false) (hp : ∀ t, p = some t → Discipline.Fit .given s.2 t) :
    Orderly (noted s task (.running p r)) where
  ready := hs.ready.insert hp
  known {other progress} hm := by
    rw [Dict.get?_insert] at hm
    split at hm
    · rename_i he
      rw [he]
      exact hs.knows_running hr
    · exact hs.known hm
  visiting other := by
    rw [running_noted hr]
    exact hs.visiting other
  depth := hs.depth
  limits := hs.limits
  quiet {other q b} hm hc := by
    rw [Dict.get?_insert] at hm
    split at hm
    · rename_i he
      cases hm
      exact hq (he ▸ hc)
    · exact hs.quiet hm hc
  solved ho := by
    have hsame : Recalls (Evaluator.noted s task (.running p r)).1 = Recalls s.1 := by
      funext other a
      exact propext (recalls_noted hr)
    rw [hsame]
    exact hs.solved ho

/-- Handing out the placeholder of a task that is not clean. -/
theorem advances_again (hs : Orderly s) {p : TypeId} {r : Bool}
    (hm : s.1.memo.get? task = some (.running (some p) r)) (hn : ¬ s.2.Clean task) :
    Advances s (noted s task (.running (some p) true)) := by
  have hr : Running s.1 task := ⟨_, _, hm⟩
  refine ⟨upholds_again hm, .refl _, rfl, (recalls_noted hr).mpr, fun _ => ?_, fun _ _ hi _ => hi⟩
  apply hs.noted hr (fun hc => absurd hc hn)
  intro t ht
  cases ht
  exact hs.ready.memo hm rfl

/-- A visit that is refused. -/
theorem advances_refused (hs : Orderly s) {g : Guard Task} (hg : s.1.guard.Kept g)
    (ho : g.overrun = true) : Advances s ({ s.1 with guard := g }, s.2) where
  upholds := .same rfl fun _ => hg
  guard := hg
  limits := rfl
  done hm := hm
  orderly _ := {
    ready := ⟨hs.ready.good, hs.ready.memo⟩
    known := hs.known
    visiting := fun task => by
      rw [hg.visiting]
      exact hs.visiting task
    depth := by
      rw [hg.depth, hg.visiting]
      exact hs.depth
    limits := hg.limits.trans hs.limits
    quiet := hs.quiet
    solved := fun hn => by cases ho.symm.trans hn }
  rested _ _ _ hn := by cases ho.symm.trans hn

section Computed

variable (hs : Orderly s) (hk : s.2.Knows task) (hm : s.1.memo.get? task = none) {g : Guard Task}
variable (hg : Guard.Inside task s.1.guard g)

theorem recalls_answer {a : TypeId} : Recalls (finished s task a).1 task a :=
  (Dict.get?_insert ..).trans (if_pos rfl)

include hm in
theorem recalls_begun {other : Task} {a : TypeId} :
    Recalls (begun s task g).1 other a ↔ Recalls s.1 other a := by
  unfold Recalls
  rw [Dict.get?_insert]
  split
  · rename_i he
    subst he
    simp [hm]
  · rfl

/-- A visit that begins is matched by a task that runs. -/
theorem visiting_begun {visited : List Task} (hv : g.visiting = task :: visited)
    (h : ∀ other, other ∈ visited ↔ Running s.1 other) (other : Task) :
    other ∈ (begun s task g).1.guard.visiting ↔ Running (begun s task g).1 other := by
  unfold Running
  rw [Dict.get?_insert, hv]
  split
  · rename_i he
    subst he
    exact ⟨fun _ => ⟨_, _, rfl⟩, fun _ => List.mem_cons_self ..⟩
  · rename_i hne
    rw [List.mem_cons, or_iff_right hne]
    exact h other

/-- When it ends, the task does not run any more. -/
theorem visiting_finished {visited : List Task} (hv : s.1.guard.visiting = task :: visited)
    (hnew : task ∉ visited) (h : ∀ other, other ∈ s.1.guard.visiting ↔ Running s.1 other)
    (a : TypeId) (other : Task) : other ∈ visited ↔ Running (finished s task a).1 other := by
  unfold Running
  rw [Dict.get?_insert]
  split
  · rename_i he
    subst he
    simp [hnew]
  · rename_i hne
    have hother := h other
    rw [hv, List.mem_cons, or_iff_right hne] at hother
    exact hother

theorem innermost_begun (hahead : Ahead s task) : Innermost (begun s task g) task := by
  rintro r ⟨p, b, hr⟩ hc
  rw [Dict.get?_insert] at hr
  split at hr
  · rename_i he
    subst he
    exact ⟨hc, Nat.le_refl _⟩
  · obtain ⟨hclean, hlt⟩ := hahead r ⟨p, b, hr⟩ hc
    exact ⟨hclean, Nat.le_of_lt hlt⟩

include hs hk hm hg

theorem orderly_begun : Orderly (begun s task g) where
  ready := hs.ready.insert fun t ht => by cases ht
  known {other progress} hq := by
    rw [Dict.get?_insert] at hq
    split at hq
    · rename_i he
      rw [he]
      exact hk
    · exact hs.known hq
  visiting := visiting_begun hg.visiting hs.visiting
  depth := by
    rw [hg.depth, hg.visiting, List.length_cons, hs.depth]
  limits := hg.limits.trans hs.limits
  quiet {other p r} hq hc := by
    rw [Dict.get?_insert] at hq
    split at hq
    · cases hq
      rfl
    · exact hs.quiet hq hc
  solved ho := by
    have hsame : Recalls (begun s task g).1 = Recalls s.1 := by
      funext other a
      exact propext (recalls_begun hm)
    rw [hsame]
    apply hs.solved
    cases hov : s.1.guard.overrun with
    | false => rfl
    | true => rw [← ho, hg.overrun hov]

variable (h : Advances (begun s task g) s') {a : TypeId} (ha : Discipline.Fit .given s'.2 a)

include h

/-- A task that was begun is still under way. -/
theorem running_of_begun : Running s'.1 task :=
  (h.running (orderly_begun hs hk hm hg)).mpr ⟨_, _, by rw [Dict.get?_insert, if_pos rfl]⟩

theorem recalls_finished {other : Task} {b : TypeId} (hr : Recalls s'.1 other b) :
    Recalls (finished s' task a).1 other b := by
  have hne : other ≠ task := by
    rintro rfl
    obtain ⟨p, r, hrun⟩ := running_of_begun hs hk hm hg h
    cases hrun.symm.trans hr
  unfold Recalls
  rw [Dict.get?_insert, if_neg hne]
  exact hr

include ha

/-- So does to finish one, if its answer follows from what is remembered. -/
theorem orderly_finished (hright : s'.2.Clean task → s'.1.guard.overrun = false →
      Settles s'.2 (Recalls s'.1) s'.1.limits task a ∧ s'.2.Solid a) :
    Orderly (finished s' task a) := by
  have hs' := h.orderly (orderly_begun hs hk hm hg)
  have hkept : s.1.guard.Kept (finished s' task a).1.guard := (hg.leave h.guard).rested hs.depth
  refine ⟨hs'.ready.insert ?_, fun {other progress} hq => ?_, fun other => ?_, ?_, ?_,
    fun {other p r} hq hc => ?_, fun ho other b hc hb => ?_⟩
  · intro t ht
    cases ht
    exact ha
  · rw [Dict.get?_insert] at hq
    split at hq
    · rename_i he
      rw [he]
      exact h.carries.knows hk
    · exact hs'.known hq
  · rw [hkept.visiting]
    exact visiting_finished (h.guard.visiting.trans hg.visiting) hg.new hs'.visiting a other
  · rw [hkept.depth, hkept.visiting, hs.depth]
  · rw [hkept.limits, hs.limits]
    exact h.limits.symm
  · rw [Dict.get?_insert] at hq
    split at hq
    · cases hq
    · exact hs'.quiet hq hc
  · have ho' : s'.1.guard.overrun = false := by
      rw [← ho]
      exact ((Guard.rested_overrun _).trans (Guard.leave_overrun ..)).symm
    have hfind : Settles s'.2 (Recalls s'.1) s'.1.limits other b ∧ s'.2.Solid b := by
      unfold Recalls at hb
      rw [Dict.get?_insert] at hb
      split at hb
      · rename_i he
        cases hb
        exact he ▸ hright (he ▸ hc) ho'
      · exact hs'.solved ho' other b hc hb
    refine ⟨hfind.1.carries (.refl _) hs'.anchored hs'.linked (fun t ht c hr => ⟨?_, ?_⟩) hc,
      hfind.2⟩
    · exact recalls_finished hs hk hm hg h hr
    · exact hs'.recalled_solid ho' ht hr

/-- A task that is not known yet is begun, worked on and finished. -/
theorem advances_finished (hright : s'.2.Clean task → s'.1.guard.overrun = false →
      Settles s'.2 (Recalls s'.1) s'.1.limits task a ∧ s'.2.Solid a) :
    Advances s (finished s' task a) where
  upholds := hs.ready.upholds_done hm hg h.upholds ha
  guard := (hg.leave h.guard).rested hs.depth
  limits := h.limits
  done hr := recalls_finished hs hk hm hg h (h.done ((recalls_begun hm).mpr hr))
  orderly _ := orderly_finished hs hk hm hg h ha hright
  rested _ hd _ _ := by
    have hleft : (s'.1.guard.leave task).depth = 0 := (hg.leave h.guard).depth.trans hd
    show (s'.1.guard.leave task).rested.iterations = 0
    rw [Guard.rested, if_pos hleft]
    rfl

end Computed

end Memo

def Settled (operator : Operator) (s : State) (x b : TypeId) : Prop :=
  Settles s.2 (Recalls s.1) s.1.limits ⟨operator, x⟩ b

theorem orderly_asked (hs : Orderly s) (task : Task) : Orderly (asked s task) :=
  { hs with ready := ⟨hs.ready.good, hs.ready.memo⟩ }

theorem advances_asked (s : State) (task : Task) : Advances s (asked s task) where
  upholds := .same rfl fun _ => .refl _
  guard := .refl _
  limits := rfl
  done hm := hm
  orderly hs := orderly_asked hs task
  rested _ _ hi _ := hi

/-- An answer that was worked out when it was not known is remembered from then on. -/
theorem advances_memoized (hs : Orderly s) {operator : Operator} {x : TypeId}
    (hk : s.2.Knows ⟨operator, x⟩) (hahead : Ahead s ⟨operator, x⟩) {compute : EvalM TypeId}
    (hc : ∀ g, Guard.Inside ⟨operator, x⟩ s.1.guard g →
      let s₁ := begun (asked s ⟨operator, x⟩) ⟨operator, x⟩ g
      Orderly s₁ → Innermost s₁ ⟨operator, x⟩ →
      Leads Advances compute s₁ (Right operator (Settled operator) x)) :
    Leads Advances (memoized ⟨operator, x⟩ compute) s (Right operator (Recalled operator) x) := by
  have hfit (hg : Discipline.Good .given s.2) : Discipline.Fit .given s.2 .never := hg.intrinsic rfl
  apply leads_memoized (advances_asked s _)
  let s₀ := asked s ⟨operator, x⟩
  have hs₀ : Orderly s₀ := orderly_asked hs _
  have hahead : Ahead s₀ ⟨operator, x⟩ := hahead
  apply leads_retrieve
  · intro a hm
    refine ⟨Evolution.refl s₀, hs₀, hk, hs.ready.memo hm rfl, fun hclean ho => ⟨hm, ?_⟩⟩
    exact hs.recalled_solid ho hclean hm
  · intro r hm
    refine ⟨Evolution.refl s₀, hs₀, hk, hfit hs.ready.good, fun hclean _ => ?_⟩
    exact absurd ⟨_, _, hm⟩ (hahead.not_running hclean)
  · intro p r hm
    have hn : ¬ s.2.Clean ⟨operator, x⟩ := fun hclean => hahead.not_running hclean ⟨_, _, hm⟩
    have hadv := advances_again hs₀ hm hn
    exact ⟨hadv, hadv.orderly hs₀, hk, hs.ready.memo hm rfl, fun hclean _ => absurd hclean hn⟩
  · intro hm g hg hrefused
    have hover : g.overrun = true := by
      rcases hrefused with hv | ho
      · obtain ⟨p, r, hr⟩ := (hs.visiting _).mp hv
        cases hm.symm.trans hr
      · exact ho
    have hadv := advances_refused hs₀ hg hover
    refine ⟨hadv, hadv.orderly hs₀, hk, hfit hs.ready.good, fun _ ho => ?_⟩
    cases hover.symm.trans ho
  · intro hm g hg
    obtain ⟨hadv, hright⟩ := hc g hg (orderly_begun hs₀ hk hm hg) (innermost_begun hahead)
    have hadv' := advances_finished hs₀ hk hm hg hadv hright.fit hright.right
    have hs' := hadv'.orderly hs₀
    refine ⟨hadv', hs', hadv.carries.knows hk, hright.fit, fun hclean ho => ⟨recalls_answer, ?_⟩⟩
    exact hs'.recalled_solid ho hclean recalls_answer

end TypeCalculus.Evaluator
