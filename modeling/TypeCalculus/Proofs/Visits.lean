import TypeCalculus.Proofs.Actions

namespace TypeCalculus

/-- What a level does, where the step makes it out of what the level below does, if there is one. -/
theorem descend_levels {α β : Type} {step : (α → β) → α → β} {stop : α → β}
    {motive : Nat → (α → β) → Prop}
    (pass : ∀ room f, (∀ below, room = below + 1 → motive below f) → motive room (step f))
    (room : Nat) : motive room (descend step stop room) := by
  induction room with
  | zero =>
    apply pass
    intro below h
    cases h
  | succ room ih =>
    apply pass
    intro below h
    cases h
    exact ih

namespace Guard

variable {κ : Type}

/-- Nothing has changed but the count of visits, and a limit may have been hit. -/
structure Kept (g g' : Guard κ) : Prop where
  limits : g'.limits = g.limits
  visiting : g'.visiting = g.visiting
  depth : g'.depth = g.depth
  overrun : g.overrun = true → g'.overrun = true
  misused : g'.misused = g.misused

theorem Kept.refl (g : Guard κ) : g.Kept g := ⟨rfl, rfl, rfl, id, rfl⟩

theorem Kept.trans {a b c : Guard κ} (h : a.Kept b) (h' : b.Kept c) : a.Kept c :=
  ⟨h'.limits.trans h.limits, h'.visiting.trans h.visiting, h'.depth.trans h.depth,
    fun ho => h'.overrun (h.overrun ho), h'.misused.trans h.misused⟩

structure Inside (key : κ) (g g' : Guard κ) : Prop where
  new : key ∉ g.visiting
  room : g.depth < g.limits.depth
  limits : g'.limits = g.limits
  visiting : g'.visiting = key :: g.visiting
  depth : g'.depth = g.depth + 1
  overrun : g.overrun = true → g'.overrun = true
  misused : g'.misused = g.misused

variable [DecidableEq κ]

/-- All that asking for a visit can come to. -/
theorem enter_cases (g : Guard κ) (key : κ) :
    (g.enter key).1 = .entered ∧ Inside key g (g.enter key).2 ∨
      (g.enter key).1 = .cycle ∧ key ∈ g.visiting ∧ g.depth < g.limits.depth ∧
        g.Kept (g.enter key).2 ∨
      ((g.enter key).1 = .depthExceeded ∨ (g.enter key).1 = .iterationExceeded) ∧
        (g.enter key).2.overrun = true ∧ g.Kept (g.enter key).2 := by
  unfold enter
  dsimp only
  split
  · exact .inr (.inr ⟨.inr rfl, rfl, ⟨rfl, rfl, rfl, fun _ => rfl, rfl⟩⟩)
  · split
    · exact .inr (.inr ⟨.inl rfl, rfl, ⟨rfl, rfl, rfl, fun _ => rfl, rfl⟩⟩)
    · rename_i _ room
      split
      · rename_i met
        refine .inr (.inl ⟨rfl, by simpa [isVisiting] using met, ?_, ⟨rfl, rfl, rfl, id, rfl⟩⟩)
        exact Nat.lt_of_not_le room
      · rename_i new
        refine .inl ⟨rfl, ⟨by simpa [isVisiting] using new, ?_, rfl, rfl, rfl, id, rfl⟩⟩
        exact Nat.lt_of_not_le room

/-- Leaving the most recent key undoes its visit. -/
theorem Inside.leave {key : κ} {g g₁ g₂ : Guard κ} (h : Inside key g g₁) (hk : g₁.Kept g₂) :
    g.Kept (g₂.leave key) := by
  have hv : g₂.visiting = key :: g.visiting := hk.visiting.trans h.visiting
  have hd : g₂.depth = g.depth + 1 := hk.depth.trans h.depth
  have ho : g.overrun = true → g₂.overrun = true := fun ho => hk.overrun (h.overrun ho)
  have hm : (g₂.leave key).misused = g₂.misused := by simp [Guard.leave, isVisiting, hv]
  exact ⟨hk.limits.trans h.limits, by simp [Guard.leave, hv], by simp [Guard.leave, hd], ho,
    hm.trans (hk.misused.trans h.misused)⟩

section Admission

variable {g : Guard κ} {key : κ}

theorem enter_counted (h : g.limits.iterations < min (g.iterations + 1) countLimit) :
    g.enter key = (.iterationExceeded, { g with
      iterations := min (g.iterations + 1) countLimit, exceeded := true, overrun := true }) :=
  if_pos h

theorem enter_deep (h : ¬ g.limits.iterations < min (g.iterations + 1) countLimit)
    (hd : g.limits.depth ≤ g.depth) :
    g.enter key = (.depthExceeded, { g with
      iterations := min (g.iterations + 1) countLimit, exceeded := true, overrun := true }) :=
  (if_neg h).trans (if_pos hd)

/-- A key that is new is entered, if neither limit is reached. -/
theorem enter_new (h : ¬ g.limits.iterations < min (g.iterations + 1) countLimit)
    (hd : g.depth < g.limits.depth) (hn : key ∉ g.visiting) :
    ∃ g', g.enter key = (.entered, g') ∧ Inside key g g' ∧
      g'.iterations = min (g.iterations + 1) countLimit ∧ g'.overrun = g.overrun := by
  have hvisiting : ¬ g.isVisiting key = true := by simpa [isVisiting] using hn
  refine ⟨_, (if_neg h).trans ((if_neg (Nat.not_le.mpr hd)).trans (if_neg hvisiting)), ?_, rfl, rfl⟩
  exact ⟨hn, hd, rfl, rfl, rfl, id, rfl⟩

def Spent (g : Guard κ) : Prop := g.limits.iterations < min (g.iterations + 1) countLimit

omit [DecidableEq κ] in
theorem Spent.congr {g g' : Guard κ} (h : g.Spent) (hl : g'.limits = g.limits)
    (hi : g'.iterations = g.iterations) : g'.Spent := by
  unfold Spent
  rw [hl, hi]
  exact h

theorem enter_limits (g : Guard κ) (key : κ) : (g.enter key).2.limits = g.limits := by
  unfold enter
  dsimp only
  split
  · rfl
  · split
    · rfl
    · split <;> rfl

/-- A visit that is asked for in vain is counted too. -/
theorem enter_iterations (g : Guard κ) (key : κ) :
    (g.enter key).2.iterations = min (g.iterations + 1) countLimit := by
  unfold enter
  dsimp only
  split
  · rfl
  · split
    · rfl
    · split <;> rfl

theorem Spent.enter (h : g.Spent) : (g.enter key).2.Spent := by
  unfold Spent at h ⊢
  rw [enter_limits, enter_iterations]
  omega

theorem enter_refused (g : Guard κ) (key : κ) (h : g.Spent ∨ g.limits.depth ≤ g.depth) :
    (g.enter key).1 = .depthExceeded ∨ (g.enter key).1 = .iterationExceeded := by
  by_cases hs : g.Spent
  · rw [enter_counted hs]
    exact .inr rfl
  · rw [enter_deep hs (h.resolve_left hs)]
    exact .inl rfl

/-- With visits and depth to spare it only matters whether the visit is under way. -/
theorem enter_admitted (g : Guard κ) (key : κ) (hs : ¬ g.Spent) (hd : g.depth < g.limits.depth) :
    key ∈ g.visiting ∧ (g.enter key).1 = .cycle ∨
      key ∉ g.visiting ∧ (g.enter key).1 = .entered := by
  by_cases hv : key ∈ g.visiting
  · refine .inl ⟨hv, ?_⟩
    have hvisiting : g.isVisiting key = true := by simpa [isVisiting] using hv
    exact congrArg Prod.fst ((if_neg hs).trans
      ((if_neg (Nat.not_le.mpr hd)).trans (if_pos hvisiting)))
  · obtain ⟨g', he, _⟩ := enter_new hs hd hv
    exact .inr ⟨hv, by rw [he]⟩

end Admission

theorem leave_limits (g : Guard κ) (key : κ) : (g.leave key).limits = g.limits := rfl

theorem leave_iterations (g : Guard κ) (key : κ) : (g.leave key).iterations = g.iterations := rfl

theorem leave_overrun (g : Guard κ) (key : κ) : (g.leave key).overrun = g.overrun := rfl

end Guard

section Visit

variable {σ κ α : Type} [DecidableEq κ] [Guarded σ κ]

/-- A visit, as it goes on after its guard has answered. -/
theorem run_visit (key : κ) (cycle limit : α) (body : StateT σ StoreM α) (s : σ × Store) :
    Action.run (visit key cycle limit body) s =
      let g := (Guarded.guard s.1).enter key
      let s₁ := (Guarded.setGuard g.2 s.1, s.2)
      match g.1 with
      | .entered =>
        let r := Action.run body s₁
        (r.1, Guarded.setGuard ((Guarded.guard r.2.1).leave key) r.2.1, r.2.2)
      | .cycle => (cycle, s₁)
      | .depthExceeded | .iterationExceeded => (limit, s₁) := by
  have hpure {β : Type} (b : β) (st : Store) : (pure b : StoreM β) st = (b, st) := rfl
  unfold visit
  simp only [Action.run, bind, StateT.bind, get, getThe, MonadStateOf.get, StateT.get, modify,
    modifyGet, MonadStateOf.modifyGet, StateT.modifyGet, hpure]
  cases ((Guarded.guard s.1).enter key).1 <;> rfl

/-- To know what a visit leads to, know it for each answer of the guard. -/
theorem leads_visit {F : σ × Store → σ × Store → Prop} {s : σ × Store} {key : κ} {cycle limit : α}
    {body : StateT σ StoreM α} {Q : α → σ × Store → Prop}
    (entered : ∀ g, Guard.Inside key (Guarded.guard s.1) g →
      let r := Action.run body (Guarded.setGuard g s.1, s.2)
      let s' := (Guarded.setGuard ((Guarded.guard r.2.1).leave key) r.2.1, r.2.2)
      F s s' ∧ Q r.1 s')
    (met : ∀ g, key ∈ (Guarded.guard s.1).visiting → (Guarded.guard s.1).Kept g →
      F s (Guarded.setGuard g s.1, s.2) ∧ Q cycle (Guarded.setGuard g s.1, s.2))
    (refused : ∀ g, g.overrun = true → (Guarded.guard s.1).Kept g →
      F s (Guarded.setGuard g s.1, s.2) ∧ Q limit (Guarded.setGuard g s.1, s.2)) :
    Leads F (visit key cycle limit body) s Q := by
  unfold Leads
  rw [run_visit]
  rcases Guard.enter_cases (Guarded.guard s.1) key with ⟨he, hi⟩ | ⟨he, hm, _, hk⟩ | ⟨he, ho, hk⟩
  · simp only [he]
    exact entered _ hi
  · simp only [he]
    exact met _ hm hk
  · rcases he with he | he <;> simp only [he] <;> exact refused _ ho hk

end Visit

end TypeCalculus
