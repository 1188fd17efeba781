import TypeCalculus.Proofs.MatchRuns
import TypeCalculus.Proofs.Twins

namespace TypeCalculus

namespace Matcher

structure Attends (base : Store) (s : State) : Prop where
  founded : base.Founded
  grown : base.Extends s.2
  reached : s.2.Reached
  scanned {t : TypeId} {answer : Bool} : s.1.scanned.get? t = some answer →
    Twin base s.2 s.2 t t ∧ answer = s.2.containsInfer t

theorem Attends.indexed {base : Store} {s : State} (h : Attends base s) : base.Indexed :=
  h.grown.indexed.mp h.reached.shared.indexed

/-- How a matcher goes on from one question to the next. -/
structure Moves (base : Store) (s s' : State) : Prop where
  grown : s.2.Extends s'.2
  guard : s.1.guard.Kept s'.1.guard
  spent : s.1.guard.Spent → s'.1.guard.Spent
  attends : Attends base s → Attends base s'

structure Rests (base : Store) (s s' : State) : Prop extends Moves base s s' where
  still : s'.1.guard = s.1.guard

variable {base : Store}

instance : Evolution (Moves base) where
  refl s := ⟨.refl s.2, .refl _, id, id⟩
  trans h h' := ⟨h.grown.trans h'.grown, h.guard.trans h'.guard, fun hs => h'.spent (h.spent hs),
    fun hs => h'.attends (h.attends hs)⟩

instance : Evolution (Rests base) where
  refl s := ⟨Evolution.refl s, rfl⟩
  trans h h' := ⟨Evolution.trans h.toMoves h'.toMoves, h'.still.trans h.still⟩

structure Alike (base a b : Store) (goal goal' : Goal) : Prop where
  subject : Twin base a b goal.subject goal'.subject
  pattern : Twin base a b goal.pattern goal'.pattern
  variance : goal'.variance = goal.variance

theorem Alike.later {a b a' b' : Store} {goal goal' : Goal} (h : Alike base a b goal goal')
    (ha : a.Extends a') (hb : b.Extends b') : Alike base a' b' goal goal' :=
  ⟨h.subject.later ha hb, h.pattern.later ha hb, h.variance⟩

theorem Alike.left {a b : Store} {goal goal' : Goal} (h : Alike base a b goal goal') :
    Alike base a a goal goal :=
  ⟨h.subject.left, h.pattern.left, rfl⟩

theorem Alike.right {a b : Store} {goal goal' : Goal} (h : Alike base a b goal goal') :
    Alike base b b goal' goal' :=
  ⟨h.subject.right, h.pattern.right, rfl⟩

/-- The two matchers are inside the same questions. -/
structure Level (base : Store) (s t : State) : Prop where
  low : Attends base s
  high : Attends base t
  visiting : List.Forall₂ (Alike base s.2 t.2) s.1.guard.visiting t.1.guard.visiting
  depth : t.1.guard.depth = s.1.guard.depth
  limit : s.1.guard.limits.depth ≤ t.1.guard.limits.depth

structure Locked (g h : Guard Goal) : Prop where
  count : h.iterations = g.iterations
  depth : h.limits.depth = g.limits.depth
  iterations : g.limits.iterations ≤ h.limits.iterations

def Lagging (g h : Guard Goal) : Prop := g.Spent ∨ Guard.countLimit ≤ h.limits.iterations

section Modes

variable {g h g' h' : Guard Goal}

theorem Locked.congr (hl : Locked g h) (hg : g'.limits = g.limits) (hh : h'.limits = h.limits)
    (hc : h'.iterations = g'.iterations) : Locked g' h' where
  count := hc
  depth := by rw [hg, hh, hl.depth]
  iterations := by
    rw [hg, hh]
    exact hl.iterations

theorem Lagging.mono (hl : Lagging g h) (hg : g.Spent → g'.Spent) (hh : h'.limits = h.limits) :
    Lagging g' h' := by
  rcases hl with hs | hs
  · exact .inl (hg hs)
  · exact .inr (hh ▸ hs)

end Modes

section Steps

variable {s s' t t' : State}

/-- Either matcher may go on alone: that changes nothing of what the two have in common. -/
theorem Level.moves (h : Level base s t) (hs : Moves base s s') (ht : Moves base t t') :
    Level base s' t' where
  low := hs.attends h.low
  high := ht.attends h.high
  visiting := by
    rw [hs.guard.visiting, ht.guard.visiting]
    exact h.visiting.imp fun _ _ ha => ha.later hs.grown ht.grown
  depth := by rw [hs.guard.depth, ht.guard.depth, h.depth]
  limit := by
    rw [hs.guard.limits, ht.guard.limits]
    exact h.limit

theorem Lagging.moves (h : Lagging s.1.guard t.1.guard) (hs : Moves base s s')
    (ht : Moves base t t') :
    Lagging s'.1.guard t'.1.guard :=
  h.mono hs.spent ht.guard.limits

/-- Between visits the counts stay equal. -/
theorem Locked.rests (h : Locked s.1.guard t.1.guard) (hs : Rests base s s')
    (ht : Rests base t t') :
    Locked s'.1.guard t'.1.guard := by
  rw [hs.still, ht.still]
  exact h

end Steps

/-- To put bindings back is no step at all. -/
theorem Moves.attempt {s : State} {act : MatchM Bool} (h : Moves base s (Action.run act s).2) :
    Moves base s (Action.run (Matcher.attempt act) s).2 := by
  rw [run_attempt]
  split
  · exact h
  · refine ⟨h.grown, h.guard, h.spent, fun hs => ?_⟩
    have hs' := h.attends hs
    exact ⟨hs'.founded, hs'.grown, hs'.reached, hs'.scanned⟩

structure Agree (base : Store) (r q : Bool × State) : Prop where
  level : Level base r.2 q.2
  answers : Locked r.2.1.guard q.2.1.guard ∧ q.1 = r.1 ∨
    Lagging r.2.1.guard q.2.1.guard ∧ (r.1 = true → q.1 = true)

def Going {α : Type} (base : Store) (act : MatchM α) (s : State) : Prop :=
  ∀ s', Moves base s s' → Moves base s' (Action.run act s').2

/-- The first action and the second keep to each other in all later states. -/
structure Simulates (base : Store) (x y : MatchM Bool) (s t : State) : Prop where
  low : Going base x s
  high : Going base y t
  agree : ∀ s' t', Moves base s s' → Moves base t t' → Level base s' t' →
    Locked s'.1.guard t'.1.guard ∨ Lagging s'.1.guard t'.1.guard →
    Agree base (Action.run x s') (Action.run y t')

variable {s s' t t' : State} {α β : Type}

theorem Going.pure (a : α) : Going base (Pure.pure a : MatchM α) s := by
  intro s' _
  rw [Action.run_pure]
  exact Evolution.refl s'

theorem Going.bind {x : MatchM α} {f : α → MatchM β} (hx : Going base x s)
    (hf : ∀ a s', Moves base s s' → Going base (f a) s') : Going base (x >>= f) s := by
  intro s' hs
  rw [Action.run_bind]
  have h₁ := hx s' hs
  exact Evolution.trans h₁ (hf _ _ (Evolution.trans hs h₁) _ (Evolution.refl _))

namespace Simulates

variable {x y : MatchM Bool}

theorem later (h : Simulates base x y s t) (hs : Moves base s s') (ht : Moves base t t') :
    Simulates base x y s' t' where
  low s'' hs' := h.low s'' (Evolution.trans hs hs')
  high t'' ht' := h.high t'' (Evolution.trans ht ht')
  agree s'' t'' hs' ht' := h.agree s'' t'' (Evolution.trans hs hs') (Evolution.trans ht ht')

theorem pure (holds : Bool) : Simulates base (return holds) (return holds) s t where
  low := .pure holds
  high := .pure holds
  agree s' t' _ _ hl hm := by
    rw [Action.run_pure, Action.run_pure]
    exact ⟨hl, hm.imp (fun h => ⟨h, rfl⟩) fun h => ⟨h, id⟩⟩

/-- Two questions one after the other. If the answers to the first differ, it is enough that what
they lead to differs in the same way. -/
theorem bind {f g : Bool → MatchM Bool} (hx : Simulates base x y s t)
    (hf : ∀ answer, Simulates base (f answer) (g answer) s t)
    (hmixed : ∀ s' t', (Action.run (f false) s').1 = true → (Action.run (g true) t').1 = true) :
    Simulates base (x >>= f) (y >>= g) s t where
  low := hx.low.bind fun answer _ hs => ((hf answer).later hs (Evolution.refl t)).low
  high := hx.high.bind fun answer _ ht => ((hf answer).later (Evolution.refl s) ht).high
  agree s' t' hs ht hl hm := by
    have hmove := hx.low s' hs
    have hmove' := hx.high t' ht
    have hagree := hx.agree s' t' hs ht hl hm
    rw [Action.run_bind, Action.run_bind]
    generalize Action.run x s' = r at hmove hagree
    generalize Action.run y t' = q at hmove' hagree
    obtain ⟨answer, s₁⟩ := r
    obtain ⟨answer', t₁⟩ := q
    have hs₁ := Evolution.trans hs hmove
    have ht₁ := Evolution.trans ht hmove'
    have hsame (he : answer' = answer)
        (hm : Locked s₁.1.guard t₁.1.guard ∨ Lagging s₁.1.guard t₁.1.guard) :
        Agree base (Action.run (f answer) s₁) (Action.run (g answer') t₁) := by
      rw [he]
      exact (hf answer).agree s₁ t₁ hs₁ ht₁ hagree.level hm
    rcases hagree.answers with ⟨hlock, he⟩ | ⟨hlag, himp⟩
    · exact hsame he (.inl hlock)
    · by_cases he : answer' = answer
      · exact hsame he (.inr hlag)
      · -- only a no of the first can have become a yes of the second
        obtain ⟨rfl, rfl⟩ : answer = false ∧ answer' = true := by
          cases answer <;> cases answer' <;> simp_all
        have hlow := (hf false).low s₁ hs₁
        have hhigh := (hf true).high t₁ ht₁
        exact ⟨hagree.level.moves hlow hhigh, .inr ⟨hlag.moves hlow hhigh, hmixed s₁ t₁⟩⟩

theorem all {f g : α → MatchM Bool} {xs : List α} (h : ∀ a ∈ xs, Simulates base (f a) (g a) s t) :
    Simulates base (xs.allM f) (xs.allM g) s t := by
  induction xs with
  | nil => exact .pure true
  | cons a xs ih =>
    apply (h a (by simp)).bind
    · intro answer
      cases answer with
      | true => exact ih fun b hb => h b (by simp [hb])
      | false => exact .pure false
    · intro s' t' h
      cases h

/-- Bindings have no part in it. -/
theorem attempt (h : Simulates base x y s t) :
    Simulates base (Matcher.attempt x) (Matcher.attempt y) s t where
  low s' hs := (h.low s' hs).attempt
  high t' ht := (h.high t' ht).attempt
  agree s' t' hs ht hl hm := by
    have hlevel := hl.moves (h.low s' hs).attempt (h.high t' ht).attempt
    have hanswers := (h.agree s' t' hs ht hl hm).answers
    rw [run_attempt, run_attempt] at hlevel ⊢
    generalize Action.run x s' = r at hlevel hanswers
    generalize Action.run y t' = q at hlevel hanswers
    obtain ⟨_ | _, s₁⟩ := r <;> obtain ⟨_ | _, t₁⟩ := q
    all_goals exact ⟨hlevel, hanswers⟩

theorem any {f g : α → MatchM Bool} {xs : List α} (h : ∀ a ∈ xs, Simulates base (f a) (g a) s t) :
    Simulates base (xs.anyM fun a => Matcher.attempt (f a))
      (xs.anyM fun a => Matcher.attempt (g a)) s t := by
  induction xs with
  | nil => exact .pure false
  | cons a xs ih =>
    apply (h a (by simp)).attempt.bind
    · intro answer
      cases answer with
      | true => exact .pure true
      | false => exact ih fun b hb => h b (by simp [hb])
    · intro s' t' _
      rfl

/-- A member that has matched is not forgotten. -/
theorem run_matched (f : α → MatchM Bool) (xs : List α) (s : State) :
    (Action.run (xs.foldlM (fun matched a => do
      if ← Matcher.attempt (f a) then return true else return matched) true) s).1 = true := by
  induction xs generalizing s with
  | nil => rfl
  | cons a xs ih =>
    have hstep : (Action.run (do
        if ← Matcher.attempt (f a) then return true else return true) s).1 = true := by
      rw [Action.run_bind]
      split <;> rfl
    rw [List.foldlM_cons, Action.run_bind, hstep]
    exact ih _

theorem some {f g : α → MatchM Bool} {xs : List α} (h : ∀ a ∈ xs, Simulates base (f a) (g a) s t)
    (matched : Bool) :
    Simulates base
      (xs.foldlM (fun matched a => do
        if ← Matcher.attempt (f a) then return true else return matched) matched)
      (xs.foldlM (fun matched a => do
        if ← Matcher.attempt (g a) then return true else return matched) matched) s t := by
  induction xs generalizing matched with
  | nil => exact .pure matched
  | cons a xs ih =>
    rw [List.foldlM_cons, List.foldlM_cons, bind_assoc, bind_assoc]
    apply (h a (by simp)).attempt.bind
    · intro answer
      cases answer with
      | true => exact ih (fun b hb => h b (by simp [hb])) true
      | false => exact ih (fun b hb => h b (by simp [hb])) matched
    · intro s' t' _
      exact run_matched g xs t'

/-- Actions between two visits, before a question. -/
theorem upon {a : MatchM α} {b : MatchM β} {f : α → MatchM Bool} {g : β → MatchM Bool}
    {R : α → β → Store → Store → Prop}
    (ha : ∀ s', Moves base s s' → Rests base s' (Action.run a s').2)
    (hb : ∀ t', Moves base t t' → Rests base t' (Action.run b t').2)
    (hr : ∀ s' t', Moves base s s' → Moves base t t' → R (Action.run a s').1 (Action.run b t').1
      (Action.run a s').2.2 (Action.run b t').2.2)
    (hf : ∀ v w s' t', Moves base s s' → Moves base t t' → R v w s'.2 t'.2 →
      Simulates base (f v) (g w) s' t') :
    Simulates base (a >>= f) (b >>= g) s t := by
  have next {s' t' : State} (hs : Moves base s s') (ht : Moves base t t') :
      Simulates base (f (Action.run a s').1) (g (Action.run b t').1) (Action.run a s').2
        (Action.run b t').2 :=
    hf _ _ _ _ (Evolution.trans hs (ha s' hs).toMoves) (Evolution.trans ht (hb t' ht).toMoves)
      (hr s' t' hs ht)
  refine ⟨fun s' hs => ?_, fun t' ht => ?_, fun s' t' hs ht hl hm => ?_⟩
  · rw [Action.run_bind]
    exact Evolution.trans (ha s' hs).toMoves ((next hs (Evolution.refl t)).low _ (Evolution.refl _))
  · rw [Action.run_bind]
    exact Evolution.trans (hb t' ht).toMoves
      ((next (Evolution.refl s) ht).high _ (Evolution.refl _))
  · have h₁ := ha s' hs
    have h₂ := hb t' ht
    rw [Action.run_bind, Action.run_bind]
    apply (next hs ht).agree _ _ (Evolution.refl _) (Evolution.refl _)
    · exact hl.moves h₁.toMoves h₂.toMoves
    · exact hm.imp (Locked.rests · h₁ h₂) (Lagging.moves · h₁.toMoves h₂.toMoves)

/-- Looking at the store, before a question. -/
theorem read {f g : Store → MatchM Bool}
    (h : ∀ s' t', Moves base s s' → Moves base t t' → Simulates base (f s'.2) (g t'.2) s' t') :
    Simulates base (getThe Store >>= f) (getThe Store >>= g) s t := by
  apply upon (R := fun v w st st' => v = st ∧ w = st')
  · exact fun s' _ => Evolution.refl s'
  · exact fun t' _ => Evolution.refl t'
  · exact fun _ _ _ _ => ⟨rfl, rfl⟩
  · rintro _ _ s' t' hs ht ⟨rfl, rfl⟩
    exact h s' t' hs ht

end Simulates

section Visit

def entering (s : State) (goal : Goal) : State :=
  ({ s.1 with guard := (s.1.guard.enter goal).2 }, s.2)

def leaving (s : State) (goal : Goal) : State := ({ s.1 with guard := s.1.guard.leave goal }, s.2)

theorem run_visit_eq (goal : Goal) (x : MatchM Bool) (s : State) :
    Action.run (visit goal true false x) s =
      match (s.1.guard.enter goal).1 with
      | .entered =>
          ((Action.run x (entering s goal)).1, leaving (Action.run x (entering s goal)).2 goal)
      | .cycle => (true, entering s goal)
      | .depthExceeded | .iterationExceeded => (false, entering s goal) := by
  rw [run_visit]
  rfl

variable {goal goal' : Goal} {x y : MatchM Bool}

theorem run_visit_refused (h : s.1.guard.Spent ∨ s.1.guard.limits.depth ≤ s.1.guard.depth) :
    Action.run (visit goal true false x) s = (false, entering s goal) := by
  rw [run_visit_eq]
  rcases s.1.guard.enter_refused goal h with he | he <;> rw [he]

section Admitted

variable (hs : ¬ s.1.guard.Spent) (hd : s.1.guard.depth < s.1.guard.limits.depth)

include hs hd

theorem run_visit_met (hv : goal ∈ s.1.guard.visiting) :
    Action.run (visit goal true false x) s = (true, entering s goal) := by
  rw [run_visit_eq]
  rcases s.1.guard.enter_admitted goal hs hd with ⟨_, he⟩ | ⟨hn, _⟩
  · rw [he]
  · exact absurd hv hn

theorem run_visit_new (hv : goal ∉ s.1.guard.visiting) :
    Guard.Inside goal s.1.guard (s.1.guard.enter goal).2 ∧
      Action.run (visit goal true false x) s =
        ((Action.run x (entering s goal)).1, leaving (Action.run x (entering s goal)).2 goal) := by
  obtain ⟨g, he, hi, _⟩ := Guard.enter_new hs hd hv
  rw [run_visit_eq, he]
  exact ⟨hi, rfl⟩

end Admitted

theorem Attends.setGuard (h : Attends base s) (g : Guard Goal) :
    Attends base ({ s.1 with guard := g }, s.2) :=
  ⟨h.founded, h.grown, h.reached, h.scanned⟩

/-- A visit that is not begun. -/
theorem moves_entering (hk : s.1.guard.Kept (s.1.guard.enter goal).2) :
    Moves base s (entering s goal) :=
  ⟨.refl _, hk, fun h => h.enter, fun hs => hs.setGuard _⟩

/-- A visit as a whole. -/
theorem moves_visit (hi : Guard.Inside goal s.1.guard (s.1.guard.enter goal).2)
    (h : Moves base (entering s goal) s') : Moves base s (leaving s' goal) where
  grown := h.grown
  guard := hi.leave h.guard
  spent hs := (h.spent hs.enter).congr (Guard.leave_limits _ goal) (Guard.leave_iterations _ goal)
  attends hs := (h.attends (hs.setGuard _)).setGuard _

theorem Going.visit (hx : ∀ s', Moves base s s' →
      Guard.Inside goal s'.1.guard (s'.1.guard.enter goal).2 →
    Moves base (entering s' goal) (Action.run x (entering s' goal)).2) :
    Going base (visit goal true false x) s := by
  intro s' hs
  rw [run_visit_eq]
  rcases Guard.enter_cases s'.1.guard goal with ⟨he, hi⟩ | ⟨he, _, _, hk⟩ | ⟨he | he, _, hk⟩
  · rw [he]
    exact moves_visit hi (hx s' hs hi)
  · rw [he]
    exact moves_entering hk
  · rw [he]
    exact moves_entering hk
  · rw [he]
    exact moves_entering hk

/-- The two matchers tell goals apart alike. -/
theorem Alike.eq_iff {a b : Store} {g g' : Goal} (ha : base.Extends a) (hb : base.Extends b)
    (hsa : a.Shared) (hsb : b.Shared) (h : Alike base a b goal goal') (hg : Alike base a b g g') :
    goal = g ↔ goal' = g' := by
  have hsubject := h.subject.eq_iff ha hb hsa hsb hg.subject
  have hpattern := h.pattern.eq_iff ha hb hsa hsb hg.pattern
  have hvariance := h.variance
  have hvariance' := hg.variance
  cases goal; cases goal'; cases g; cases g'
  simp_all

/-- The two matchers find the same visits under way. -/
theorem Level.visiting_iff (h : Level base s t) (ha : Alike base s.2 t.2 goal goal') :
    goal ∈ s.1.guard.visiting ↔ goal' ∈ t.1.guard.visiting := by
  have hall := h.visiting
  generalize s.1.guard.visiting = goals at hall ⊢
  generalize t.1.guard.visiting = goals' at hall ⊢
  induction hall with
  | nil => simp
  | cons hg _ ih =>
    have hsame := ha.eq_iff h.low.grown h.high.grown h.low.reached.shared h.high.reached.shared hg
    rw [List.mem_cons, List.mem_cons]
    exact or_congr hsame ih

theorem Level.entering (h : Level base s t) (ha : Alike base s.2 t.2 goal goal')
    (hi : Guard.Inside goal s.1.guard (s.1.guard.enter goal).2)
    (hi' : Guard.Inside goal' t.1.guard (t.1.guard.enter goal').2) :
    Level base (entering s goal) (entering t goal') where
  low := h.low.setGuard _
  high := h.high.setGuard _
  visiting := by
    show List.Forall₂ _ (s.1.guard.enter goal).2.visiting (t.1.guard.enter goal').2.visiting
    rw [hi.visiting, hi'.visiting]
    exact .cons ha h.visiting
  depth := by
    show (t.1.guard.enter goal').2.depth = (s.1.guard.enter goal).2.depth
    rw [hi.depth, hi'.depth, h.depth]
  limit := by
    show (s.1.guard.enter goal).2.limits.depth ≤ (t.1.guard.enter goal').2.limits.depth
    rw [hi.limits, hi'.limits]
    exact h.limit

section Modes

variable {g h : Guard Goal}

theorem Locked.enter (hl : Locked g h) : Locked (g.enter goal).2 (h.enter goal').2 := by
  apply hl.congr (Guard.enter_limits g goal) (Guard.enter_limits h goal')
  rw [Guard.enter_iterations, Guard.enter_iterations, hl.count]

theorem Locked.leave (hl : Locked g h) : Locked (g.leave goal) (h.leave goal') := by
  apply hl.congr (Guard.leave_limits g goal) (Guard.leave_limits h goal')
  rw [Guard.leave_iterations, Guard.leave_iterations, hl.count]

/-- The first asks in vain, or the second cannot be refused. -/
theorem Lagging.enter (hl : Lagging g h) : Lagging (g.enter goal).2 (h.enter goal').2 :=
  hl.mono (fun hs => hs.enter) (Guard.enter_limits h goal')

theorem Lagging.leave (hl : Lagging g h) : Lagging (g.leave goal) (h.leave goal') :=
  hl.mono (fun hs => hs.congr (Guard.leave_limits g goal) (Guard.leave_iterations g goal))
    (Guard.leave_limits h goal')

end Modes

/-- What the first matcher is admitted to, the second is admitted to. -/
theorem Level.admitted (hl : Level base s t)
    (hm : Locked s.1.guard t.1.guard ∨ Lagging s.1.guard t.1.guard) (hs : ¬ s.1.guard.Spent)
    (hd : s.1.guard.depth < s.1.guard.limits.depth) :
    ¬ t.1.guard.Spent ∧ t.1.guard.depth < t.1.guard.limits.depth := by
  constructor
  · rcases hm with hlock | hspent | hlimit
    · have hcount := hlock.count
      have hiterations := hlock.iterations
      unfold Guard.Spent at hs ⊢
      omega
    · exact absurd hspent hs
    · unfold Guard.Spent
      omega
  · rw [hl.depth]
    exact Nat.lt_of_lt_of_le hd hl.limit

/-- They keep in step, with equal answers, until the first has no visits left; from then on, and
from the beginning if the second cannot run out of visits, a yes of the first is a yes of the
second. -/
theorem Simulates.visit (ha : Alike base s.2 t.2 goal goal')
    (hx : ∀ s', Moves base s s' → Guard.Inside goal s'.1.guard (s'.1.guard.enter goal).2 →
      Going base x (entering s' goal))
    (hy : ∀ t', Moves base t t' → Guard.Inside goal' t'.1.guard (t'.1.guard.enter goal').2 →
      Going base y (entering t' goal'))
    (hxy : ∀ s' t', Moves base s s' → Moves base t t' →
      Guard.Inside goal s'.1.guard (s'.1.guard.enter goal).2 →
      Guard.Inside goal' t'.1.guard (t'.1.guard.enter goal').2 →
      Simulates base x y (entering s' goal) (entering t' goal')) :
    Simulates base (visit goal true false x) (visit goal' true false y) s t := by
  have hlow : Going base (TypeCalculus.visit goal true false x) s :=
    .visit fun s' hs hi => hx s' hs hi _ (Evolution.refl _)
  have hhigh : Going base (TypeCalculus.visit goal' true false y) t :=
    .visit fun t' ht hi => hy t' ht hi _ (Evolution.refl _)
  refine ⟨hlow, hhigh, fun s' t' hs ht hl hm => ⟨hl.moves (hlow s' hs) (hhigh t' ht), ?_⟩⟩
  by_cases hrefused : s'.1.guard.Spent ∨ s'.1.guard.limits.depth ≤ s'.1.guard.depth
  · by_cases hlag : Lagging s'.1.guard t'.1.guard
    · refine .inr ⟨hlag.moves (hlow s' hs) (hhigh t' ht), fun hyes => ?_⟩
      rw [run_visit_refused hrefused] at hyes
      cases hyes
    · -- in step, and refused for the depth: the second is as deep
      have hlock := hm.resolve_right hlag
      have hdeep : t'.1.guard.limits.depth ≤ t'.1.guard.depth := by
        rw [hlock.depth, hl.depth]
        exact hrefused.resolve_left fun h => hlag (.inl h)
      rw [run_visit_refused hrefused, run_visit_refused (.inr hdeep)]
      exact .inl ⟨hlock.enter, rfl⟩
  · simp only [not_or, Nat.not_le] at hrefused
    obtain ⟨hsp, hd⟩ := hrefused
    obtain ⟨hsp', hd'⟩ := hl.admitted hm hsp hd
    have halike := ha.later hs.grown ht.grown
    by_cases hv : goal ∈ s'.1.guard.visiting
    · rw [run_visit_met hsp hd hv, run_visit_met hsp' hd' ((hl.visiting_iff halike).mp hv)]
      exact hm.imp (fun h => ⟨h.enter, rfl⟩) fun h => ⟨h.enter, id⟩
    · have hv' : goal' ∉ t'.1.guard.visiting := fun h => hv ((hl.visiting_iff halike).mpr h)
      obtain ⟨hi, hrun⟩ := run_visit_new (x := x) hsp hd hv
      obtain ⟨hi', hrun'⟩ := run_visit_new (x := y) hsp' hd' hv'
      have hagree := (hxy s' t' hs ht hi hi').agree _ _ (Evolution.refl _) (Evolution.refl _)
        (hl.entering halike hi hi') (hm.imp (fun h => h.enter) fun h => h.enter)
      rw [hrun, hrun']
      exact hagree.answers.imp (fun h => ⟨h.1.leave, h.2⟩) fun h => ⟨h.1.leave, h.2⟩

end Visit

end Matcher

end TypeCalculus
