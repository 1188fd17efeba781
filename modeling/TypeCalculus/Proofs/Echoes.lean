import TypeCalculus.Proofs.Solid
import TypeCalculus.Proofs.Visits

namespace TypeCalculus

class Located (S : Type) where
  store : S → Store
  put : S → Store → S

instance : Located Store := ⟨id, fun _ st => st⟩

instance (σ : Type) : Located (σ × Store) := ⟨Prod.snd, fun s st => (s.1, st)⟩

class Foregoing {S : Type} [Located S] (W : Store → Store → Prop) (F : S → S → Prop) : Prop extends
    Evolution F where
  before {s s' : S} {st : Store} : F s s' → W (Located.store s') st → W (Located.store s) st

section Echo

variable {m : Type → Type} [Monad m] {S α β : Type} [Action m S] [Located S]
variable (W : Store → Store → Prop)

/-- Run once more from the same state of its walk, in any store that counts as later than the one it
left, the action gives the same answer and adds nothing. -/
def Echo (act : m α) (s : S) : Prop :=
  ∀ st', W (Located.store (Action.run act s).2) st' →
    Action.run act (Located.put s st') =
    ((Action.run act s).1, Located.put (Action.run act s).2 st')

structure Runs (F : S → S → Prop) (act : m α) (s : S) (Q : α → S → Prop) : Prop where
  leads : Leads F act s Q
  echo : Echo W act s

namespace Runs

variable {W} {F : S → S → Prop} {s : S}

/-- Nothing is promised where no store counts as later. -/
theorem of_leads {x : m α} {Q : α → S → Prop} (hx : Leads F x s Q) (hn : ∀ st st', ¬ W st st') :
    Runs W F x s Q :=
  ⟨hx, fun st' h => absurd h (hn _ st')⟩

theorem mono {x : m α} {Q R : α → S → Prop} (h : Runs W F x s Q)
    (hq : ∀ a s', F s s' → Q a s' → R a s') : Runs W F x s R :=
  ⟨h.leads.mono hq, h.echo⟩

theorem narrow {V : Store → Store → Prop} {x : m α} {Q : α → S → Prop} (h : Runs W F x s Q)
    (hw : ∀ {st st'}, V st st' → W st st') : Runs V F x s Q :=
  ⟨h.leads, fun st' hv => h.echo st' (hw hv)⟩

variable [Foregoing W F]

theorem pure {a : α} {Q : α → S → Prop} (h : Q a s) : Runs W F (Pure.pure a : m α) s Q := by
  refine ⟨Leads.pure h, fun st' _ => ?_⟩
  rw [Action.run_pure, Action.run_pure]

/-- Two actions echo one after the other: what the second one adds the first one overlooks. -/
theorem bind {x : m α} {f : α → m β} {Q : α → S → Prop} {R : β → S → Prop} (hx : Runs W F x s Q)
    (hf : ∀ a s', F s s' → Q a s' → Runs W F (f a) s' R) : Runs W F (x >>= f) s R := by
  have hnext := hf _ _ hx.leads.1 hx.leads.2
  refine ⟨hx.leads.bind fun a s' hs hq => (hf a s' hs hq).leads, fun st' hw => ?_⟩
  rw [Action.run_bind] at hw ⊢
  rw [Action.run_bind]
  rw [hx.echo st' (Foregoing.before hnext.leads.1 hw)]
  exact hnext.echo st' hw

theorem mapM [LawfulMonad m] {f : α → m β} {Q : α → β → S → Prop} {xs : List α}
    (hq : ∀ x y, StableFrom F s (Q x y))
    (hf : ∀ x ∈ xs, ∀ s', F s s' → Runs W F (f x) s' (Q x)) :
    Runs W F (xs.mapM f) s fun ys s' => List.Forall₂ (fun x y => Q x y s') xs ys := by
  induction xs generalizing s with
  | nil =>
    rw [List.mapM_nil]
    exact Runs.pure .nil
  | cons x xs ih =>
    rw [List.mapM_cons]
    apply (hf x (by simp) s (Evolution.refl s)).bind
    intro y s₁ h₁ hy
    have htail := ih (fun z w => (hq z w).later h₁)
      fun z hz s' hs => hf z (by simp [hz]) s' (Evolution.trans h₁ hs)
    apply htail.bind
    intro ys s₂ h₂ hys
    exact Runs.pure (.cons (hq x y h₁ h₂ hy) hys)

theorem foldlM {f : β → α → m β} {Q : β → S → Prop} {xs : List α} {b : β} (hb : Q b s)
    (hf : ∀ b, ∀ x ∈ xs, ∀ s', F s s' → Q b s' → Runs W F (f b x) s' Q) :
    Runs W F (xs.foldlM f b) s Q := by
  induction xs generalizing b s with
  | nil => exact Runs.pure hb
  | cons x xs ih =>
    rw [List.foldlM_cons]
    apply (hf b x (by simp) s (Evolution.refl s) hb).bind
    intro b' s₁ h₁ hb'
    exact ih hb' fun c z hz s' hs hc => hf c z (by simp [hz]) s' (Evolution.trans h₁ hs) hc

theorem forM {f : α → m PUnit} {xs : List α}
    (hf : ∀ x ∈ xs, ∀ s', F s s' → Runs W F (f x) s' fun _ _ => True) :
    Runs W F (xs.forM f) s fun _ _ => True := by
  induction xs generalizing s with
  | nil => exact Runs.pure trivial
  | cons x xs ih =>
    show Runs W F (f x >>= fun _ => xs.forM f) s _
    apply (hf x (by simp) s (Evolution.refl s)).bind
    intro _ s₁ h₁ _
    exact ih fun z hz s' hs => hf z (by simp [hz]) s' (Evolution.trans h₁ hs)

theorem allM {f : α → m Bool} {xs : List α}
    (hf : ∀ x ∈ xs, ∀ s', F s s' → Runs W F (f x) s' fun _ _ => True) :
    Runs W F (xs.allM f) s fun _ _ => True := by
  induction xs generalizing s with
  | nil => exact Runs.pure trivial
  | cons x xs ih =>
    apply (hf x (by simp) s (Evolution.refl s)).bind
    intro b s₁ h₁ _
    cases b with
    | true => exact ih fun z hz s' hs => hf z (by simp [hz]) s' (Evolution.trans h₁ hs)
    | false => exact Runs.pure trivial

theorem anyM {f : α → m Bool} {xs : List α}
    (hf : ∀ x ∈ xs, ∀ s', F s s' → Runs W F (f x) s' fun _ _ => True) :
    Runs W F (xs.anyM f) s fun _ _ => True := by
  induction xs generalizing s with
  | nil => exact Runs.pure trivial
  | cons x xs ih =>
    apply (hf x (by simp) s (Evolution.refl s)).bind
    intro b s₁ h₁ _
    cases b with
    | true => exact Runs.pure trivial
    | false => exact ih fun z hz s' hs => hf z (by simp [hz]) s' (Evolution.trans h₁ hs)

end Runs

end Echo

/-- What is done next must be the same in every later store. -/
theorem runs_read {W : Store → Store → Prop} {α : Type} {F : Store → Store → Prop} [Foregoing W F]
    {f : Store → StoreM α} {st : Store} {Q : α → Store → Prop} (h : Runs W F (f st) st Q)
    (hread : ∀ st', W st st' → f st' = f st) : Runs W F (get >>= f) st Q := by
  refine ⟨h.leads, fun st' hw => ?_⟩
  have hlater : W st st' := Foregoing.before h.leads.1 hw
  show Action.run (f st') st' = _
  rw [hread st' hlater]
  exact h.echo st' hw

section State

variable {W : Store → Store → Prop} {σ α β : Type} {F : σ × Store → σ × Store → Prop}
  {s : σ × Store}

theorem runs_get {f : σ → StateT σ StoreM β} {Q : β → σ × Store → Prop}
    (h : Runs W F (f s.1) s Q) : Runs W F (get >>= f) s Q :=
  ⟨leads_get h.leads, h.echo⟩

/-- A walk that reads the store must go on in the same way in every later one. -/
theorem runs_getStore [Foregoing W F] {f : Store → StateT σ StoreM β} {Q : β → σ × Store → Prop}
    (h : Runs W F (f s.2) s Q) (hread : ∀ st', W s.2 st' → f st' = f s.2) :
    Runs W F (getThe Store >>= f) s Q := by
  refine ⟨leads_getStore h.leads, fun st' hw => ?_⟩
  have hlater : W s.2 st' := Foregoing.before h.leads.1 hw
  show Action.run (f st') (s.1, st') = _
  rw [hread st' hlater]
  exact h.echo st' hw

theorem runs_modify {g : σ → σ} {Q : PUnit → σ × Store → Prop} (hF : F s (g s.1, s.2))
    (hQ : Q ⟨⟩ (g s.1, s.2)) : Runs W F (modify g : StateT σ StoreM PUnit) s Q :=
  ⟨leads_modify hF hQ, fun _ _ => rfl⟩

/-- An action on the store is repeated in whatever state the walk is. -/
theorem runs_lift {G : Store → Store → Prop} {x : StoreM α} {P : α → Store → Prop}
    {Q : α → σ × Store → Prop} (h : Runs W G x s.2 P) (hF : F s (s.1, (x.run s.2).2))
    (hQ : Q (x.run s.2).1 (s.1, (x.run s.2).2)) : Runs W F (liftM x : StateT σ StoreM α) s Q := by
  refine ⟨leads_lift hF hQ, fun st' hw => ?_⟩
  have hx := h.echo st' hw
  show ((Action.run x st').1, s.1, (Action.run x st').2) = _
  exact congrArg (fun r => (r.1, s.1, r.2)) hx

/-- Running a walk from a first state is an action on the store alone. -/
theorem runs_start {G : Store → Store → Prop} {x : StateT σ StoreM α} {first : σ} {st : Store}
    {Q : α → σ × Store → Prop} (h : Runs W F x (first, st) Q)
    (hF : ∀ {s s' : σ × Store}, F s s' → G s.2 s'.2) :
    Runs W G (x.run first : StoreM (α × σ)) st fun r st' => Q r.1 (r.2, st') := by
  refine ⟨⟨hF h.leads.1, h.leads.2⟩, fun st' hw => ?_⟩
  have hx : Action.run x (first, st') = _ := h.echo st' hw
  exact congrArg (fun r : α × σ × Store => ((r.1, r.2.1), r.2.2)) hx

/-- A visit, for each answer of the guard. -/
theorem runs_visit {κ : Type} [DecidableEq κ] [Guarded σ κ] [Foregoing W F] {key : κ}
    {cycle limit : α} {body : StateT σ StoreM α} {P Q : α → σ × Store → Prop}
    (entered : ∀ g, Guard.Inside key (Guarded.guard s.1) g →
      Runs W F body (Guarded.setGuard g s.1, s.2) P)
    (left : ∀ g, Guard.Inside key (Guarded.guard s.1) g → ∀ a (s' : σ × Store),
      F (Guarded.setGuard g s.1, s.2) s' → P a s' →
      F s (Guarded.setGuard ((Guarded.guard s'.1).leave key) s'.1, s'.2) ∧
        Q a (Guarded.setGuard ((Guarded.guard s'.1).leave key) s'.1, s'.2))
    (stopped : ∀ g, (Guarded.guard s.1).Kept g → F s (Guarded.setGuard g s.1, s.2) ∧
      Q cycle (Guarded.setGuard g s.1, s.2) ∧ Q limit (Guarded.setGuard g s.1, s.2)) :
    Runs W F (visit key cycle limit body) s Q := by
  constructor
  · apply leads_visit
    · intro g hi
      obtain ⟨hF, hP⟩ := (entered g hi).leads
      exact left g hi _ _ hF hP
    · exact fun g _ hk => ⟨(stopped g hk).1, (stopped g hk).2.1⟩
    · exact fun g _ hk => ⟨(stopped g hk).1, (stopped g hk).2.2⟩
  · intro st' hw
    show Action.run (visit key cycle limit body) (s.1, st') = _
    rw [run_visit] at hw
    rw [run_visit, run_visit]
    rcases Guard.enter_cases (Guarded.guard s.1) key with ⟨he, hi⟩ | ⟨he, _⟩ | ⟨he | he, _⟩
    · simp only [he] at hw ⊢
      have hrun : Action.run body (Guarded.setGuard ((Guarded.guard s.1).enter key).2 s.1, st') =
          _ :=
        (entered _ hi).echo st' hw
      rw [hrun]
      rfl
    · simp only [he]
      rfl
    · simp only [he]
      rfl
    · simp only [he]
      rfl

end State

end TypeCalculus
