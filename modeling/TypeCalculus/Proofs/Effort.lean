import TypeCalculus.Evaluator.Basic

namespace TypeCalculus

structure Effort where
  known : Task → Bool
  visits : Nat
  overrun : Bool

namespace Effort

def visited (e : Effort) : Effort := { e with visits := min (e.visits + 1) Guard.countLimit }

def refused (e : Effort) : Effort := { e.visited with overrun := true }

def learned (e : Effort) (task : Task) : Effort :=
  { e.visited with known := fun t => t = task || e.known t }

def rested (limits : Limits) (room : Nat) (e : Effort) : Effort :=
  if room = limits.depth then { e with visits := 0 } else e

/-- Works on a task, `room` levels above the last. -/
def explore (limits : Limits) (subtasks : Task → List Task) : Nat → Effort → Task → Effort
  | 0, e, task => if e.known task then e else e.refused
  | room + 1, e, task =>
    if e.known task then e
    else if limits.iterations < e.visited.visits then e.refused
    else rested limits (room + 1)
      ((subtasks task).foldl (explore limits subtasks room) (e.learned task))

variable {limits : Limits} {subtasks : Task → List Task} {room : Nat} {e w f : Effort} {task : Task}

theorem explore_known (h : e.known task = true) : explore limits subtasks room e task = e := by
  cases room <;> simp [explore, h]

theorem explore_refused (h : e.known task = false)
    (hr : room = 0 ∨ limits.iterations < e.visited.visits) :
    explore limits subtasks room e task = e.refused := by
  cases room with
  | zero => simp [explore, h]
  | succ room =>
    have hr : limits.iterations < e.visited.visits := by simpa using hr
    simp [explore, h, hr]

/-- A task that is new and not refused leads to its subtasks, one after the other. -/
theorem explore_entered (h : e.known task = false) (hi : ¬ limits.iterations < e.visited.visits) :
    explore limits subtasks (room + 1) e task = rested limits (room + 1)
      ((subtasks task).foldl (explore limits subtasks room) (e.learned task)) := by
  simp [explore, h, hi]

@[simp] theorem rested_known : (rested limits room e).known = e.known := by
  unfold rested
  split <;> rfl

@[simp] theorem rested_overrun : (rested limits room e).overrun = e.overrun := by
  unfold rested
  split <;> rfl

/-- What was refused stays refused. -/
theorem overrun_foldl {step : Effort → Task → Effort}
    (h : ∀ e task, e.overrun = true → (step e task).overrun = true) (tasks : List Task)
    (ho : e.overrun = true) : (tasks.foldl step e).overrun = true := by
  induction tasks generalizing e with
  | nil => exact ho
  | cons task tasks ih => exact ih (h e task ho)

theorem overrun_explore (limits : Limits) (subtasks : Task → List Task) (room : Nat) (e : Effort)
    (task : Task) (ho : e.overrun = true) :
    (explore limits subtasks room e task).overrun = true := by
  induction room generalizing e task with
  | zero =>
    unfold explore
    split
    · exact ho
    · rfl
  | succ room ih =>
    unfold explore
    split
    · exact ho
    · split
      · rfl
      · rw [rested_overrun]
        exact overrun_foldl ih _ ho

/-- `w` knows all that `f` knows, and what else it knows of `C`, it knows with all that this leads
to. At the outermost level it begins with all its visits. -/
structure Eases (limits : Limits) (subtasks : Task → List Task) (C : Task → Prop) (room : Nat)
    (w f : Effort) : Prop where
  known (task : Task) : f.known task = true → w.known task = true
  closed (task : Task) : w.known task = true → f.known task = false → C task →
    ∀ sub ∈ subtasks task, w.known sub = true
  visits : w.visits ≤ f.visits
  bounded : w.visits ≤ Guard.countLimit
  fresh : room = limits.depth → w.visits = 0

namespace Eases

variable {C : Task → Prop}

theorem below (h : Eases limits subtasks C room w f) {room' : Nat} (hr : room' < limits.depth) :
    Eases limits subtasks C room' w f :=
  ⟨h.known, h.closed, h.visits, h.bounded, fun he => absurd he (Nat.ne_of_lt hr)⟩

theorem refused_right (h : Eases limits subtasks C room w f) :
    Eases limits subtasks C room w f.refused := by
  refine ⟨h.known, h.closed, ?_, h.bounded, h.fresh⟩
  have := h.visits
  have := h.bounded
  simp only [refused, visited]
  omega

theorem learned_right (h : Eases limits subtasks C room w f) (hw : w.known task = true) :
    Eases limits subtasks C room w (f.learned task) := by
  refine ⟨fun t ht => ?_, fun t ht hf => h.closed t ht ?_, h.refused_right.visits,
    h.bounded, h.fresh⟩
  · simp only [learned, Bool.or_eq_true, decide_eq_true_eq] at ht
    rcases ht with rfl | ht
    · exact hw
    · exact h.known t ht
  · simp only [learned, Bool.or_eq_false_iff] at hf
    exact hf.2

theorem learned_both (h : Eases limits subtasks C room w f) (task : Task) {room' : Nat}
    (hr : room' < limits.depth) :
    Eases limits subtasks C room' (w.learned task) (f.learned task) := by
  refine ⟨fun t ht => ?_, fun t ht hf hc sub hs => ?_, ?_, ?_,
    fun he => absurd he (Nat.ne_of_lt hr)⟩
  · simp only [learned, Bool.or_eq_true] at ht ⊢
    exact ht.imp_right (h.known t)
  · simp only [learned, Bool.or_eq_false_iff, decide_eq_false_iff_not, Bool.or_eq_true,
      decide_eq_true_eq] at ht hf ⊢
    exact .inr (h.closed t (ht.resolve_left hf.1) hf.2 hc sub hs)
  · have := h.visits
    simp only [learned, visited]
    omega
  · simp only [learned, visited]
    omega

theorem rested_right (h : Eases limits subtasks C room w f) {room' : Nat}
    (hw : room' = limits.depth → w.visits = 0) :
    Eases limits subtasks C room' w (rested limits room' f) := by
  refine ⟨fun t ht => h.known t (by simpa using ht),
    fun t ht hf => h.closed t ht (by simpa using hf),
    ?_, h.bounded, hw⟩
  unfold rested
  split
  · rename_i he
    exact Nat.le_of_eq (hw he)
  · exact h.visits

theorem rested_both (h : Eases limits subtasks C room w f) (room' : Nat) :
    Eases limits subtasks C room' (rested limits room' w) (rested limits room' f) := by
  refine ⟨fun t ht => ?_, fun t ht hf hc => ?_, ?_, ?_, ?_⟩
  · simp only [rested_known] at ht ⊢
    exact h.known t ht
  · simp only [rested_known] at ht hf ⊢
    exact h.closed t ht hf hc
  · unfold rested
    split
    · exact Nat.le_refl _
    · exact h.visits
  · unfold rested
    split
    · exact Nat.zero_le _
    · exact h.bounded
  · intro he
    simp [rested, he]

/-- Work on tasks that the other knows stays within what the other knows. -/
theorem foldl_right {step : Effort → Task → Effort}
    (hstep : ∀ f task, C task → w.known task = true → Eases limits subtasks C room w f →
      Eases limits subtasks C room w (step f task))
    {tasks : List Task} (htasks : ∀ task ∈ tasks, C task ∧ w.known task = true)
    (h : Eases limits subtasks C room w f) :
    Eases limits subtasks C room w (tasks.foldl step f) := by
  induction tasks generalizing f with
  | nil => exact h
  | cons task tasks ih =>
    obtain ⟨hc, hw⟩ := htasks task (by simp)
    apply ih (fun t ht => htasks t (by simp [ht]))
    exact hstep f task hc hw h

/-- Side by side, where the one that knows less is not refused a visit, the other is not either. -/
theorem foldl_both {step : Effort → Task → Effort}
    (hover : ∀ e task, e.overrun = true → (step e task).overrun = true)
    (hstep : ∀ w f task, C task → Eases limits subtasks C room w f → (step f task).overrun = false →
      Eases limits subtasks C room (step w task) (step f task) ∧
        (w.overrun = false → (step w task).overrun = false))
    {tasks : List Task} (htasks : ∀ task ∈ tasks, C task) (h : Eases limits subtasks C room w f)
    (hf : (tasks.foldl step f).overrun = false) :
    Eases limits subtasks C room (tasks.foldl step w) (tasks.foldl step f) ∧
      (w.overrun = false → (tasks.foldl step w).overrun = false) := by
  induction tasks generalizing w f with
  | nil => exact ⟨h, id⟩
  | cons task tasks ih =>
    have hfirst : (step f task).overrun = false := by
      cases ho : (step f task).overrun with
      | false => rfl
      | true =>
        rw [← hf]
        exact (overrun_foldl hover tasks ho).symm
    obtain ⟨hnext, ho⟩ := hstep w f task (htasks task (by simp)) h hfirst
    obtain ⟨hlast, ho'⟩ := ih (fun t ht => htasks t (by simp [ht])) hnext hf
    exact ⟨hlast, fun hw => ho' (ho hw)⟩

variable (hC : ∀ task, C task → ∀ sub ∈ subtasks task, C sub)

include hC

/-- Work on a task that the other knows stays within what the other knows. -/
theorem explore_right (hroom : room ≤ limits.depth) {f : Effort} {task : Task} (hc : C task)
    (hw : w.known task = true) (h : Eases limits subtasks C room w f) :
    Eases limits subtasks C room w (explore limits subtasks room f task) := by
  induction room generalizing f task with
  | zero =>
    unfold explore
    split
    · exact h
    · exact h.refused_right
  | succ room ih =>
    unfold explore
    split
    · exact h
    rename_i hf
    split
    · exact h.refused_right
    have hlt : room < limits.depth := hroom
    have hend := ((h.learned_right hw).below hlt).foldl_right
      (fun f task hc hw => ih (Nat.le_of_lt hlt) hc hw)
      fun sub hs => ⟨hC task hc sub hs, h.closed task hw (by simpa using hf) hc sub hs⟩
    exact hend.rested_right h.fresh

/-- An evaluator that knows more has less to do, and is refused nothing that the other is not. -/
theorem explore_both (hroom : room ≤ limits.depth) {w f : Effort} {task : Task} (hc : C task)
    (h : Eases limits subtasks C room w f)
    (hf : (explore limits subtasks room f task).overrun = false) :
    Eases limits subtasks C room (explore limits subtasks room w task)
        (explore limits subtasks room f task) ∧
      (w.overrun = false → (explore limits subtasks room w task).overrun = false) := by
  induction room generalizing w f task with
  | zero =>
    cases hk : f.known task with
    | true =>
      rw [explore_known hk, explore_known (h.known task hk)]
      exact ⟨h, id⟩
    | false =>
      rw [explore_refused hk (.inl rfl)] at hf
      cases hf
  | succ room ih =>
    have hlt : room < limits.depth := hroom
    cases hw : w.known task with
    | true =>
      rw [explore_known hw]
      exact ⟨explore_right hC hroom hc hw h, id⟩
    | false =>
      have hk : f.known task = false := by
        cases hk : f.known task with
        | false => rfl
        | true => rw [← hw, h.known task hk]
      have hi : ¬ limits.iterations < f.visited.visits := by
        intro hi
        rw [explore_refused hk (.inr hi)] at hf
        cases hf
      have hi' : ¬ limits.iterations < w.visited.visits := by
        have := h.visits
        simp only [visited] at hi ⊢
        omega
      rw [explore_entered hk hi] at hf ⊢
      rw [explore_entered hw hi']
      rw [rested_overrun] at hf
      obtain ⟨hend, ho⟩ :=
        (h.learned_both task hlt).foldl_both (overrun_explore limits subtasks room)
        (fun w f task hc h => ih (Nat.le_of_lt hlt) hc h) (hC task hc) hf
      rw [rested_overrun]
      exact ⟨hend.rested_both _, ho⟩

end Eases

end Effort

end TypeCalculus
