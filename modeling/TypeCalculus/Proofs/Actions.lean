import Mathlib.Data.List.Forall2
import TypeCalculus.Descent
import TypeCalculus.Store.Members

namespace TypeCalculus

class Action (m : Type → Type) [Monad m] (S : outParam Type) where
  run {α : Type} : m α → S → α × S
  run_pure {α : Type} (a : α) (s : S) : run (pure a) s = (a, s)
  run_bind {α β : Type} (x : m α) (f : α → m β) (s : S) :
    run (x >>= f) s = run (f (run x s).1) (run x s).2

instance : Action StoreM Store where
  run act st := act st
  run_pure _ _ := rfl
  run_bind _ _ _ := rfl

instance (σ : Type) : Action (StateT σ StoreM) (σ × Store) where
  run act s := ((act s.1 s.2).1.1, (act s.1 s.2).1.2, (act s.1 s.2).2)
  run_pure _ _ := rfl
  run_bind _ _ _ := rfl

theorem mem_right_of_forall₂ {α β : Type} {R : α → β → Prop} {xs : List α} {ys : List β}
    (h : List.Forall₂ R xs ys) {y : β} (hy : y ∈ ys) : ∃ x ∈ xs, R x y := by
  induction h with
  | nil => simp at hy
  | @cons x z _ _ hxz _ ih =>
    rcases List.mem_cons.mp hy with rfl | hy
    · exact ⟨x, by simp, hxz⟩
    · obtain ⟨w, hw, hr⟩ := ih hy
      exact ⟨w, by simp [hw], hr⟩

theorem mem_zip_of_forall₂ {α β γ : Type} {R : β → γ → Prop} {xs : List α} {ys : List β}
    {zs : List γ} (h : List.Forall₂ R ys zs) {pair : α × γ} (hp : pair ∈ xs.zip zs) :
    ∃ y, (pair.1, y) ∈ xs.zip ys ∧ R y pair.2 := by
  induction h generalizing xs with
  | nil => simp at hp
  | @cons y z ys zs hyz _ ih =>
    cases xs with
    | nil => simp at hp
    | cons x xs =>
      rcases List.mem_cons.mp hp with rfl | hp
      · exact ⟨y, List.mem_cons_self, hyz⟩
      · obtain ⟨y', hm, hr⟩ := ih hp
        exact ⟨y', List.mem_cons_of_mem _ hm, hr⟩

class Evolution {S : Type} (F : S → S → Prop) : Prop where
  refl (s : S) : F s s
  trans {a b c : S} : F a b → F b c → F a c

def Stable {S : Type} (F : S → S → Prop) (P : S → Prop) : Prop := ∀ ⦃s s'⦄, F s s' → P s → P s'

def StableFrom {S : Type} (F : S → S → Prop) (s : S) (P : S → Prop) : Prop :=
  ∀ ⦃s' s''⦄, F s s' → F s' s'' → P s' → P s''

theorem Stable.from {S : Type} {F : S → S → Prop} {P : S → Prop} (h : Stable F P) (s : S) :
    StableFrom F s P :=
  fun _ _ _ hs => h hs

theorem StableFrom.later {S : Type} {F : S → S → Prop} [Evolution F] {P : S → Prop} {s s' : S}
    (h : StableFrom F s P) (hs : F s s') : StableFrom F s' P :=
  fun _ _ h₁ h₂ => h (Evolution.trans hs h₁) h₂

/-- The action, begun in `s`, ends in a later state in which `Q` holds of its answer. -/
def Leads {m : Type → Type} [Monad m] {S α : Type} [Action m S] (F : S → S → Prop) (act : m α)
    (s : S) (Q : α → S → Prop) : Prop :=
  F s (Action.run act s).2 ∧ Q (Action.run act s).1 (Action.run act s).2

namespace Leads

variable {m : Type → Type} [Monad m] {S : Type} [Action m S] {F : S → S → Prop}
variable {α β : Type} {s : S}

theorem mono {x : m α} {Q R : α → S → Prop} (h : Leads F x s Q)
    (hq : ∀ a s', F s s' → Q a s' → R a s') : Leads F x s R :=
  ⟨h.1, hq _ _ h.1 h.2⟩

/-- A last step that is itself no evolution, but ends in a state that has evolved from the first. -/
theorem andThen {x : m α} {f : α → m β} {Q : α → S → Prop} {R : β → S → Prop} (hx : Leads F x s Q)
    (hf : ∀ a s', F s s' → Q a s' →
      F s (Action.run (f a) s').2 ∧ R (Action.run (f a) s').1 (Action.run (f a) s').2) :
    Leads F (x >>= f) s R := by
  unfold Leads
  rw [Action.run_bind]
  exact hf _ _ hx.1 hx.2

section Evolving

variable [Evolution F]

theorem pure {a : α} {Q : α → S → Prop} (h : Q a s) : Leads F (Pure.pure a : m α) s Q := by
  unfold Leads
  rw [Action.run_pure]
  exact ⟨Evolution.refl s, h⟩

/-- The second action begins where the first one leads to. -/
theorem bind {x : m α} {f : α → m β} {Q : α → S → Prop} {R : β → S → Prop} (hx : Leads F x s Q)
    (hf : ∀ a s', F s s' → Q a s' → Leads F (f a) s' R) : Leads F (x >>= f) s R := by
  obtain ⟨h₁, hq⟩ := hx
  obtain ⟨h₂, hr⟩ := hf _ _ h₁ hq
  unfold Leads
  rw [Action.run_bind]
  exact ⟨Evolution.trans h₁ h₂, hr⟩

/-- A list of actions that all do their part, each begun in a later state than the one before. The
invariant `I` is about what has been done so far. -/
theorem mapM_along [LawfulMonad m] {γ : Type} {f : α → m β} {k : α → γ} {I : List γ → S → Prop}
    {Q : α → β → S → Prop} {xs : List α} (done : List γ) (hi : I done s)
    (hq : ∀ x y, StableFrom F s (Q x y))
    (hf : ∀ x ∈ xs, ∀ done s', F s s' → I done s' →
      Leads F (f x) s' fun y s'' => I (done ++ [k x]) s'' ∧ Q x y s'') :
    Leads F (xs.mapM f) s fun ys s' =>
      I (done ++ xs.map k) s' ∧ List.Forall₂ (fun x y => Q x y s') xs ys := by
  induction xs generalizing s done with
  | nil =>
    rw [List.mapM_nil, List.map_nil, List.append_nil]
    exact Leads.pure ⟨hi, .nil⟩
  | cons x xs ih =>
    rw [List.mapM_cons]
    apply (hf x (by simp) done s (Evolution.refl s) hi).bind
    intro y s₁ h₁ hy
    apply (ih (done ++ [k x]) hy.1 (fun z w => (hq z w).later h₁) fun z hz done s' hs =>
      hf z (by simp [hz]) done s' (Evolution.trans h₁ hs)).bind
    intro ys s₂ h₂ hys
    rw [List.append_assoc] at hys
    exact Leads.pure ⟨hys.1, .cons (hq x y h₁ h₂ hy.2) hys.2⟩

theorem mapM [LawfulMonad m] {f : α → m β} {Q : α → β → S → Prop} {xs : List α}
    (hq : ∀ x y, StableFrom F s (Q x y))
    (hf : ∀ x ∈ xs, ∀ s', F s s' → Leads F (f x) s' (Q x)) :
    Leads F (xs.mapM f) s fun ys s' => List.Forall₂ (fun x y => Q x y s') xs ys := by
  have h := mapM_along (k := id) (I := fun _ _ => True) [] trivial hq
    fun x hx _ s' hs _ => (hf x hx s' hs).mono fun _ _ _ h => ⟨trivial, h⟩
  exact h.mono fun _ _ _ h => h.2

/-- `Q` is an invariant of the fold. -/
theorem foldlM {f : β → α → m β} {Q : β → S → Prop} {xs : List α} {b : β} (hb : Q b s)
    (hf : ∀ b, ∀ x ∈ xs, ∀ s', F s s' → Q b s' → Leads F (f b x) s' Q) :
    Leads F (xs.foldlM f b) s Q := by
  induction xs generalizing b s with
  | nil => exact Leads.pure hb
  | cons x xs ih =>
    rw [List.foldlM_cons]
    refine (hf b x (by simp) s (Evolution.refl s) hb).bind fun b' s₁ h₁ hb' => ?_
    exact ih hb' fun c z hz s' hs hc => hf c z (by simp [hz]) s' (Evolution.trans h₁ hs) hc

theorem forM {f : α → m PUnit} {xs : List α}
    (hf : ∀ x ∈ xs, ∀ s', F s s' → Leads F (f x) s' fun _ _ => True) :
    Leads F (xs.forM f) s fun _ _ => True := by
  induction xs generalizing s with
  | nil => exact Leads.pure trivial
  | cons x xs ih =>
    show Leads F (f x >>= fun _ => xs.forM f) s _
    refine (hf x (by simp) s (Evolution.refl s)).bind fun _ s₁ h₁ _ => ?_
    exact ih fun z hz s' hs => hf z (by simp [hz]) s' (Evolution.trans h₁ hs)

end Evolving

end Leads

theorem leads_run {α : Type} {F : Store → Store → Prop} {x : StoreM α} {st : Store}
    {Q : α → Store → Prop} (hF : F st (x.run st).2) (hQ : Q (x.run st).1 (x.run st).2) :
    Leads F x st Q :=
  ⟨hF, hQ⟩

theorem leads_read {α : Type} {F : Store → Store → Prop} {f : Store → StoreM α} {st : Store}
    {Q : α → Store → Prop} (h : Leads F (f st) st Q) : Leads F (get >>= f) st Q := h

section State

variable {σ α β : Type} {F : σ × Store → σ × Store → Prop} {s : σ × Store}

/-- An action on the store leaves the state of the walk alone. -/
theorem leads_lift {x : StoreM α} {Q : α → σ × Store → Prop} (hF : F s (s.1, (x.run s.2).2))
    (hQ : Q (x.run s.2).1 (s.1, (x.run s.2).2)) : Leads F (liftM x : StateT σ StoreM α) s Q :=
  ⟨hF, hQ⟩

theorem leads_get {f : σ → StateT σ StoreM β} {Q : β → σ × Store → Prop}
    (h : Leads F (f s.1) s Q) : Leads F (get >>= f) s Q := h

theorem leads_getStore {f : Store → StateT σ StoreM β} {Q : β → σ × Store → Prop}
    (h : Leads F (f s.2) s Q) : Leads F (getThe Store >>= f) s Q := h

theorem leads_modify {g : σ → σ} {Q : PUnit → σ × Store → Prop} (hF : F s (g s.1, s.2))
    (hQ : Q ⟨⟩ (g s.1, s.2)) : Leads F (modify g : StateT σ StoreM PUnit) s Q :=
  ⟨hF, hQ⟩

end State

end TypeCalculus
