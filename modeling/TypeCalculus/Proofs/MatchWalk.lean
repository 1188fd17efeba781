import TypeCalculus.Proofs.MatchClauses

namespace TypeCalculus.Matcher

class Upkeep (K : State → State → Prop) : Prop extends Evolution K where
  restore {s s' : State} : K s s' → K s ({ s'.1 with bindings := s.1.bindings }, s'.2)
  blind {s s' : State} (g g' : Guard Goal) : K s s' →
    K ({ s.1 with guard := g }, s.2) ({ s'.1 with guard := g' }, s'.2)

structure Walk (K : State → State → Prop) (s s' : State) : Prop where
  guard : s.1.guard.Kept s'.1.guard
  kept : K s s'

section Walk

variable {K : State → State → Prop} [Upkeep K]

instance : Progression (Walk K) where
  refl s := ⟨.refl _, Evolution.refl s⟩
  trans h h' := ⟨h.guard.trans h'.guard, Evolution.trans h.kept h'.kept⟩
  overrun h := h.guard.overrun
  restore h := ⟨h.guard, Upkeep.restore h.kept⟩

theorem Walk.setGuard (s : State) {g : Guard Goal} (h : s.1.guard.Kept g) :
    Walk K s ({ s.1 with guard := g }, s.2) :=
  ⟨h, Upkeep.blind s.1.guard g (Evolution.refl s)⟩

theorem Walk.leave {s s' : State} {key : Goal} {g : Guard Goal}
    (hi : Guard.Inside key s.1.guard g) (h : Walk K ({ s.1 with guard := g }, s.2) s') :
    Walk K s ({ s'.1 with guard := s'.1.guard.leave key }, s'.2) :=
  ⟨hi.leave h.guard,
    Upkeep.blind (s := ({ s.1 with guard := g }, s.2)) s.1.guard _ h.kept⟩

end Walk

structure Meets (J : State → Prop) (V : Variance → Prop) (Subject Pattern : Store → TypeId → Prop)
    (s : State) (goal : Goal) : Prop where
  known : J s
  variance : V goal.variance
  subject : Subject s.2 goal.subject
  pattern : Pattern s.2 goal.pattern

/-- What decides a question about a pair of types, from what decides the questions about their
parts. `J` is known of every state of the walk, `V` of the variance of every question. -/
structure Rules (K : State → State → Prop) (J : State → Prop) (V : Variance → Prop)
    (Subject Pattern : Store → TypeId → Prop) (A B : Goal → State → Prop)
    (A' B' : Variance → TypeId → TypeId → State → Prop) : Prop where
  ground : Ground (Walk K) Subject Pattern
  known : Stable (Walk K) J
  blind {s : State} (g : Guard Goal) : J s → J ({ s.1 with guard := g }, s.2)
  stable_yes (goal : Goal) : Stable (Walk K) (A goal)
  stable_asked (goal : Goal) : Stable (Walk K) (B goal)
  stable_yes_into (v : Variance) (a b : TypeId) : Stable (Walk K) (A' v a b)
  stable_asked_into (v : Variance) (a b : TypeId) : Stable (Walk K) (B' v a b)
  /-- A type and itself. -/
  same {s : State} {goal : Goal} : Meets J V Subject Pattern s goal →
    goal.subject = goal.pattern → A goal s
  undefined {s : State} {goal : Goal} : Meets J V Subject Pattern s goal →
    goal.subject ≠ goal.pattern → s.2.form? goal.pattern = none → ¬ B goal s
  bound {s : State} {goal : Goal} {name : String} : Meets J V Subject Pattern s goal →
    s.2.form? goal.pattern = some (.infer name) →
    Leads (Walk K) (bind name goal.subject goal.variance) s fun _ => A goal
  extreme {s : State} {goal : Goal} : Meets J V Subject Pattern s goal →
    (s.2.form? goal.pattern).isSome → goal.pattern.isTop = true ∨ goal.subject = .never →
    A goal s
  any {s : State} {goal : Goal} : Meets J V Subject Pattern s goal →
    (s.2.form? goal.pattern).isSome → goal.subject = .any →
    Leads (Walk K) (bindAny goal) s fun _ => A goal
  met {s : State} {goal : Goal} : Meets J V Subject Pattern s goal →
    goal ∈ s.1.guard.visiting → A goal s
  /-- The clause, found to hold during the visit, closes the question. -/
  close {s s' : State} {goal : Goal} {g : Guard Goal} : Meets J V Subject Pattern s goal →
    (∀ name, s.2.form? goal.pattern ≠ some (.infer name)) → Guard.Inside goal s.1.guard g →
    Walk K ({ s.1 with guard := g }, s.2) s' →
    s'.2.Clause (fun a b => A ⟨a, b, goal.variance⟩ s') (fun a b => A' goal.variance a b s')
      goal.subject goal.pattern →
    A goal ({ s'.1 with guard := s'.1.guard.leave goal }, s'.2)
  /-- The question, where no rule above applies, opens into the clause. -/
  unfold {s : State} {goal : Goal} {g : Guard Goal} : Meets J V Subject Pattern s goal →
    Guard.Inside goal s.1.guard g → goal.subject ≠ goal.pattern → goal.pattern.isTop = false →
    goal.subject ≠ .never → goal.subject ≠ .any → B goal s →
    s.2.Clause (fun a b => B ⟨a, b, goal.variance⟩ ({ s.1 with guard := g }, s.2))
      (fun a b => B' goal.variance a b ({ s.1 with guard := g }, s.2)) goal.subject goal.pattern
  /-- The questions about parts that values flow into. -/
  into {s : State} {ask : Goal → MatchM Bool} (v : Variance) : J s →
    (∀ w, V w → Asks (Walk K) Subject Pattern s (fun a b => ask ⟨a, b, w⟩) (fun a b => A ⟨a, b, w⟩)
      (fun a b => B ⟨a, b, w⟩)) →
    AsksInto (Walk K) Subject Pattern s (fun a b => askParameter ask a b v) (A' v) (B' v)

namespace Rules

variable {K : State → State → Prop} [Upkeep K] {J : State → Prop} {V : Variance → Prop}
variable {Subject Pattern : Store → TypeId → Prop} {A B : Goal → State → Prop}
variable {A' B' : Variance → TypeId → TypeId → State → Prop}
variable (rules : Rules K J V Subject Pattern A B A' B')

include rules

/-- One level of the walk, if the levels below decide their questions while it is being visited. -/
theorem decides_step {ask : Goal → MatchM Bool} {goal : Goal} {s : State}
    (hm : Meets J V Subject Pattern s goal)
    (hask : ∀ g, Guard.Inside goal s.1.guard g → ∀ w, V w → Asks (Walk K) Subject Pattern
      ({ s.1 with guard := g }, s.2) (fun a b => ask ⟨a, b, w⟩) (fun a b => A ⟨a, b, w⟩)
      (fun a b => B ⟨a, b, w⟩)) :
    Decides (Walk K) (step ask goal) s (A goal) (B goal) := by
  unfold step
  split
  · rename_i h
    exact .yes (rules.same hm h)
  · rename_i hne
    refine Decides.read ?_
    split
    · rename_i hn
      exact .no (rules.undefined hm hne (Store.form?_eq_none.mpr hn))
    · rename_i name hn
      refine Leads.bind (rules.bound hm (Store.form_of_lookup hn)) fun _ s' _ ha => ?_
      exact Leads.pure ⟨fun _ => ha, fun _ => .inl rfl⟩
    · rename_i node hinfer hn
      have hform := Store.form_of_lookup hn
      have hsome : (s.2.form? goal.pattern).isSome := by simp [hform]
      have hnot (name : String) : s.2.form? goal.pattern ≠ some (.infer name) := by
        rw [hform]
        cases node with
        | infer other => exact absurd rfl (hinfer other)
        | _ => nofun
      split
      · rename_i he
        exact .yes (rules.extreme hm hsome (by simpa using he))
      · rename_i he
        simp only [Bool.or_eq_true, decide_eq_true_eq, not_or, Bool.not_eq_true] at he
        split
        · rename_i hany
          refine Leads.bind (rules.any hm hsome hany) fun _ s' _ ha => ?_
          exact Leads.pure ⟨fun _ => ha, fun _ => .inl rfl⟩
        · rename_i hany
          refine leads_visit (fun g hi => ?_) (fun g hv hk => ?_) (fun g ho hk => ?_)
          · have hw := decides_matchStructure (s := ({ s.1 with guard := g }, s.2)) rules.ground
              hm.subject hm.pattern
              (fun a b => rules.stable_yes _) (fun a b => rules.stable_asked _)
              (fun a b => rules.stable_yes_into goal.variance a b)
              (fun a b => rules.stable_asked_into goal.variance a b)
              (hask g hi goal.variance hm.variance)
              (rules.into goal.variance (rules.blind g hm.known) (hask g hi)) (Evolution.refl _) hn
            obtain ⟨hF, hyes, hno⟩ := hw
            refine ⟨Walk.leave hi hF, fun h => rules.close hm hnot hi hF (hyes h), fun hb => ?_⟩
            exact (hno (rules.unfold (s := s) hm hi hne he.1 he.2 hany hb)).imp_right
              (Guard.leave_overrun _ goal).trans
          · exact ⟨Walk.setGuard s hk, fun _ => rules.stable_yes goal (Walk.setGuard s hk)
              (rules.met hm hv), fun _ => .inl rfl⟩
          · exact ⟨Walk.setGuard s hk, fun h => by simp at h, fun _ => .inr ho⟩

/-- The walk decides its question if there is room for every level that the guard allows. -/
theorem decides_descend {room : Nat} {goal : Goal} {s : State}
    (hm : Meets J V Subject Pattern s goal)
    (hroom : s.1.guard.limits.depth ≤ room + s.1.guard.depth) :
    Decides (Walk K) (descend step (fun _ => return false) room goal) s (A goal) (B goal) := by
  induction room generalizing goal s with
  | zero =>
    refine rules.decides_step hm fun g hi => ?_
    have := hi.room
    omega
  | succ room ih =>
    refine rules.decides_step hm fun g hi w hw s' hs' a b ha hb => ?_
    refine ih ⟨rules.known hs' (rules.blind g hm.known), hw, ha, hb⟩ ?_
    rw [hs'.guard.limits, hs'.guard.depth]
    show g.limits.depth ≤ room + g.depth
    rw [hi.limits, hi.depth]
    omega

/-- What a run leaves of its question: the answer, decided, unless a limit was hit. -/
theorem decides_run (limits : Limits) {subject pattern : TypeId} {st : Store}
    (hm : Meets J V Subject Pattern (start limits, st) ⟨subject, pattern, .covariant⟩) :
    let goal : Goal := ⟨subject, pattern, .covariant⟩
    let r := (Matcher.run limits subject pattern).run st
    Walk K (start limits, st) (r.1.2, r.2) ∧ (r.1.1 = true → A goal (r.1.2, r.2)) ∧
      (B goal (start limits, st) → r.1.1 = true ∨ r.1.2.guard.overrun = true) :=
  rules.decides_descend hm (Nat.le_add_right _ _)

end Rules

end TypeCalculus.Matcher
