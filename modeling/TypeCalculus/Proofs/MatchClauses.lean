import TypeCalculus.Proofs.Assignability
import TypeCalculus.Proofs.Visits

namespace TypeCalculus.Matcher

abbrev State := Matcher × Store

class Progression (F : State → State → Prop) : Prop extends Evolution F where
  overrun {s s' : State} : F s s' → s.1.guard.overrun = true → s'.1.guard.overrun = true
  restore {s s' : State} : F s s' → F s ({ s'.1 with bindings := s.1.bindings }, s'.2)

theorem run_attempt (x : MatchM Bool) (s : State) : Action.run (attempt x) s =
    if (Action.run x s).1 then (true, (Action.run x s).2)
    else (false, { (Action.run x s).2.1 with bindings := s.1.bindings }, (Action.run x s).2.2) := by
  show Action.run (x >>= fun yes => if yes then pure true else
    modify (fun m => { m with bindings := s.1.bindings }) >>= fun _ => pure false) s = _
  rw [Action.run_bind]
  split
  · rw [Action.run_pure]
  · rfl

/-- A yes means that `A` holds from then on; if `B` held, the answer is yes, unless a limit was
hit. -/
def Decides (F : State → State → Prop) (act : MatchM Bool) (s : State) (A B : State → Prop) :
    Prop :=
  Leads F act s fun yes s' => (yes = true → A s') ∧ (B s → yes = true ∨ s'.1.guard.overrun = true)

namespace Decides

variable {F : State → State → Prop} {s : State} {A B A' B' : State → Prop}

theorem mono {x : MatchM Bool} (h : Decides F x s A B) (hA : ∀ s', F s s' → A s' → A' s')
    (hB : B' s → B s) : Decides F x s A' B' :=
  Leads.mono h fun _ s' hs hx => ⟨fun hy => hA s' hs (hx.1 hy), fun hb => hx.2 (hB hb)⟩

theorem read {f : Store → MatchM Bool} (h : Decides F (f s.2) s A B) :
    Decides F (getThe Store >>= f) s A B :=
  leads_getStore h

variable [Progression F]

theorem yes (hA : A s) : Decides F (pure true) s A B := Leads.pure ⟨fun _ => hA, fun _ => .inl rfl⟩

theorem no (hB : ¬ B s) : Decides F (pure false) s A B :=
  Leads.pure ⟨fun h => by simp at h, fun h => absurd h hB⟩

theorem test {b : Bool} (hA : b = true → A s) (hB : B s → b = true) :
    Decides F (pure b) s A B :=
  Leads.pure ⟨hA, fun h => .inl (hB h)⟩

/-- An action that always succeeds, before the question. -/
theorem after {α : Type} {x : MatchM α} {f : α → MatchM Bool} {Q : α → State → Prop}
    (hx : Leads F x s Q) (hf : ∀ a s', F s s' → Q a s' → Decides F (f a) s' A B)
    (hB : Stable F B) : Decides F (x >>= f) s A B := by
  refine Leads.bind hx fun a s' hs hq => ?_
  exact Leads.mono (hf a s' hs hq) fun _ _ _ h => ⟨h.1, fun hb => h.2 (hB hs hb)⟩

/-- Questions one after the other decide the conjunction. -/
theorem all {α : Type} {f : α → MatchM Bool} {xs : List α} {A B : α → State → Prop}
    (hA : ∀ x ∈ xs, StableFrom F s (A x)) (hB : ∀ x ∈ xs, StableFrom F s (B x))
    (hf : ∀ x ∈ xs, ∀ s', F s s' → Decides F (f x) s' (A x) (B x)) :
    Decides F (xs.allM f) s (fun s => ∀ x ∈ xs, A x s) (fun s => ∀ x ∈ xs, B x s) := by
  induction xs generalizing s with
  | nil => exact .yes (by simp)
  | cons x xs ih =>
    refine Leads.bind (hf x (by simp) s (Evolution.refl s)) fun b s₁ h₁ hb => ?_
    cases b with
    | true =>
      refine Leads.mono (ih (fun z hz => (hA z (by simp [hz])).later h₁)
        (fun z hz => (hB z (by simp [hz])).later h₁)
        fun z hz s' hs => hf z (by simp [hz]) s' (Evolution.trans h₁ hs))
        fun b s₂ h₂ hb' => ⟨fun h => ?_, fun h => ?_⟩
      · intro z hz
        rcases List.mem_cons.mp hz with rfl | hz
        · exact hA z (by simp) h₁ h₂ (hb.1 rfl)
        · exact hb'.1 h z hz
      · exact hb'.2 fun z hz => hB z (by simp [hz]) (Evolution.refl s) h₁ (h z (by simp [hz]))
    | false =>
      refine Leads.pure ⟨fun h => by simp at h, fun h => ?_⟩
      rcases hb.2 (h x (by simp)) with h | h
      · cases h
      · exact .inr h

/-- The bindings are put back after a no, and otherwise nothing is lost. -/
theorem attempt {x : MatchM Bool} (h : Decides F x s A B) :
    Decides F (Matcher.attempt x) s A B := by
  obtain ⟨hF, hx⟩ := h
  unfold Decides Leads
  rw [run_attempt]
  split
  · rename_i hy
    rw [hy] at hx
    exact ⟨hF, hx⟩
  · rename_i hn
    refine ⟨Progression.restore hF, fun h => by simp at h, fun hb => ?_⟩
    rcases hx.2 hb with h | h
    · exact absurd h hn
    · exact .inr h

/-- The first of the members that matches is enough. -/
theorem any {α : Type} {f : α → MatchM Bool} {xs : List α} {A B : α → State → Prop}
    (hB : ∀ x ∈ xs, StableFrom F s (B x))
    (hf : ∀ x ∈ xs, ∀ s', F s s' → Decides F (f x) s' (A x) (B x)) :
    Decides F (xs.anyM fun x => Matcher.attempt (f x)) s (fun s => ∃ x ∈ xs, A x s)
      (fun s => ∃ x ∈ xs, B x s) := by
  induction xs generalizing s with
  | nil => exact .no (by simp)
  | cons x xs ih =>
    refine Leads.bind (hf x (by simp) s (Evolution.refl s)).attempt fun b s₁ h₁ hb => ?_
    cases b with
    | true => exact Leads.pure ⟨fun _ => ⟨x, by simp, hb.1 rfl⟩, fun _ => .inl rfl⟩
    | false =>
      refine Leads.mono (ih (fun z hz => (hB z (by simp [hz])).later h₁)
        fun z hz s' hs => hf z (by simp [hz]) s' (Evolution.trans h₁ hs))
        fun b s₂ h₂ hb' => ⟨fun h => ?_, fun h => ?_⟩
      · obtain ⟨z, hz, ha⟩ := hb'.1 h
        exact ⟨z, by simp [hz], ha⟩
      · obtain ⟨z, hz, hbz⟩ := h
        rcases List.mem_cons.mp hz with rfl | hz
        · rcases hb.2 hbz with h | h
          · cases h
          · exact .inr (Progression.overrun h₂ h)
        · exact hb'.2 ⟨z, hz, hB z (by simp [hz]) (Evolution.refl s) h₁ hbz⟩

/-- Every member is tried, and one that matches is enough. -/
theorem some {α : Type} {f : α → MatchM Bool} {xs : List α} {A B : α → State → Prop}
    (hA : ∀ x ∈ xs, StableFrom F s (A x)) (hB : ∀ x ∈ xs, StableFrom F s (B x))
    (hf : ∀ x ∈ xs, ∀ s', F s s' → Decides F (f x) s' (A x) (B x)) :
    Decides F (xs.foldlM (fun matched x => do
        if ← Matcher.attempt (f x) then return true else return matched) false) s
      (fun s => ∃ x ∈ xs, A x s) (fun s => ∃ x ∈ xs, B x s) := by
  -- the loop carries what it has matched, so the statement is about any start
  suffices h : ∀ b, Decides F (xs.foldlM (fun matched x => do
      if ← Matcher.attempt (f x) then return true else return matched) b) s
      (fun s => b = true ∨ ∃ x ∈ xs, A x s) (fun s => b = true ∨ ∃ x ∈ xs, B x s) by
    refine (h false).mono (fun s' _ ha => ?_) .inr
    rcases ha with ha | ha
    · cases ha
    · exact ha
  induction xs generalizing s with
  | nil =>
    intro b
    exact .test .inl fun h => h.resolve_right (by simp)
  | cons x xs ih =>
    intro b
    rw [List.foldlM_cons]
    refine Leads.bind (Q := fun c s₁ => (c = true → b = true ∨ A x s₁) ∧
      (b = true ∨ B x s → c = true ∨ s₁.1.guard.overrun = true)) ?_ fun c s₁ h₁ hc => ?_
    · refine Leads.bind (hf x (by simp) s (Evolution.refl s)).attempt fun y s₁ h₁ hy => ?_
      cases y with
      | true => exact Leads.pure ⟨fun _ => .inr (hy.1 rfl), fun _ => .inl rfl⟩
      | false =>
        refine Leads.pure ⟨.inl, fun h => ?_⟩
        rcases h with h | h
        · exact .inl h
        · exact (hy.2 h).imp_left (by simp)
    · refine Leads.mono (ih (fun z hz => (hA z (by simp [hz])).later h₁)
        (fun z hz => (hB z (by simp [hz])).later h₁)
        (fun z hz s' hs => hf z (by simp [hz]) s' (Evolution.trans h₁ hs)) c)
        fun y s₂ h₂ hy => ⟨fun h => ?_, fun h => ?_⟩
      · rcases hy.1 h with h | ⟨z, hz, ha⟩
        · exact (hc.1 h).imp_right fun ha => ⟨x, by simp, hA x (by simp) h₁ h₂ ha⟩
        · exact .inr ⟨z, by simp [hz], ha⟩
      · rcases h with h | ⟨z, hz, hbz⟩
        · rcases hc.2 (.inl h) with h | h
          · exact hy.2 (.inl h)
          · exact .inr (Progression.overrun h₂ h)
        · rcases List.mem_cons.mp hz with rfl | hz
          · rcases hc.2 (.inr hbz) with h | h
            · exact hy.2 (.inl h)
            · exact .inr (Progression.overrun h₂ h)
          · exact hy.2 (.inr ⟨z, hz, hB z (by simp [hz]) (Evolution.refl s) h₁ hbz⟩)

/-- A type is built, and then asked about. What is built is what building it again would find. -/
theorem built {x : StoreM TypeId} {f : TypeId → MatchM Bool} {A B : TypeId → State → Prop}
    {P : Store → TypeId → Prop}
    (hx : Leads F (liftM x : MatchM TypeId) s fun t s' => P s'.2 t ∧ x.run s'.2 = (t, s'.2))
    (hk : ∀ t, StableFrom F s fun s => x.run s.2 = (t, s.2)) (hB : ∀ t, StableFrom F s (B t))
    (hf : ∀ t s', F s s' → P s'.2 t → Decides F (f t) s' (A t) (B t)) :
    Decides F (liftM x >>= f) s (fun s => ∃ t, x.run s.2 = (t, s.2) ∧ A t s)
      (fun s => ∃ t, x.run s.2 = (t, s.2) ∧ B t s) := by
  obtain ⟨h₁, hp, hfound⟩ := hx
  refine Leads.bind (Q := fun t s₁ => P s₁.2 t ∧ x.run s₁.2 = (t, s₁.2) ∧
    ∀ t', x.run s.2 = (t', s.2) → t = t') ⟨h₁, hp, hfound, ?_⟩ ?_
  · exact fun t' ht' => congrArg Prod.fst ht'
  · rintro t s₁ h₁ ⟨hp₁, hfound₁, hsole⟩
    refine Leads.mono (hf t s₁ h₁ hp₁) fun yes s₂ h₂ hy => ⟨fun h => ?_, ?_⟩
    · exact ⟨t, hk t h₁ h₂ hfound₁, hy.1 h⟩
    · rintro ⟨t', ht', hb⟩
      obtain rfl := hsole t' ht'
      exact hy.2 (hB t (Evolution.refl s) h₁ hb)

end Decides

/-- What holds of every subject and every pattern that a walk meets: it stays so, and what they are
made of stays the same, as long as the state evolves by `F`; and the slots of a subject can be taken
together without leaving this ground. -/
structure Ground (F : State → State → Prop) (Subject Pattern : Store → TypeId → Prop) : Prop where
  subject_kept {s s' : State} {t : TypeId} : F s s' → Subject s.2 t →
    Subject s'.2 t ∧ s'.2.form? t = s.2.form? t
  pattern_kept {s s' : State} {t : TypeId} : F s s' → Pattern s.2 t →
    Pattern s'.2 t ∧ s'.2.form? t = s.2.form? t
  subject_child {st : Store} {t c : TypeId} : Subject st t → c ∈ st.mentions t → Subject st c
  pattern_child {st : Store} {t c : TypeId} : Pattern st t → c ∈ st.mentions t → Pattern st c
  unknown {s : State} {t : TypeId} : Subject s.2 t → Subject s.2 .unknown
  element {s : State} {t : TypeId} {f : Form} {slot : Slot} : Subject s.2 t →
    s.2.form? t = some f → slot ∈ f.slots →
    Leads F (liftM (elementType slot) : MatchM TypeId) s fun e s' =>
      Subject s'.2 e ∧ s'.2.Element slot e
  element_kept {s s' : State} {t e : TypeId} {f : Form} {slot : Slot} : F s s' → Subject s.2 t →
    s.2.form? t = some f → slot ∈ f.slots → s.2.Element slot e → s'.2.Element slot e
  remainder {s : State} {t p : TypeId} {f g : Form} {slot : Slot} (n : Nat) : Subject s.2 t →
    s.2.form? t = some f → Pattern s.2 p → s.2.form? p = some g → slot ∈ g.slots →
    slot.rest = true →
    Leads F (liftM (Matcher.remainder (f.slots.drop n)) : MatchM TypeId) s fun e s' =>
      Subject s'.2 e ∧ s'.2.Remainder (f.slots.drop n) e
  remainder_kept {s s' : State} {t e : TypeId} {f : Form} {n : Nat} : F s s' → Subject s.2 t →
    s.2.form? t = some f → s.2.Remainder (f.slots.drop n) e → s'.2.Remainder (f.slots.drop n) e

section Inquiries

variable {F : State → State → Prop} {Subject Pattern : Store → TypeId → Prop}

def Asks (F : State → State → Prop) (Subject Pattern : Store → TypeId → Prop) (s₀ : State)
    (ask : TypeId → TypeId → MatchM Bool) (A B : TypeId → TypeId → State → Prop) : Prop :=
  ∀ s, F s₀ s → ∀ a b, Subject s.2 a → Pattern s.2 b → Decides F (ask a b) s (A a b) (B a b)

def AsksInto (F : State → State → Prop) (Subject Pattern : Store → TypeId → Prop) (s₀ : State)
    (ask : TypeId → TypeId → MatchM Bool) (A B : TypeId → TypeId → State → Prop) : Prop :=
  ∀ st p sig, Pattern st p →
    (st.form? p = some (.function sig) ∨ st.form? p = some (.constructor sig)) →
    Asks F Subject Pattern s₀ ask A B

variable (ground : Ground F Subject Pattern) {s₀ s : State} {ask : Goal → MatchM Bool}
variable {v : Variance} {A B A' B' : TypeId → TypeId → State → Prop}
variable {t p : TypeId} {f g : Form} (ht : Subject s.2 t) (hp : Pattern s.2 p)
variable (hf : s.2.form? t = some f) (hg : s.2.form? p = some g)

include ground ht hf

theorem Ground.stable_operand {x : Operand} (hx : x.Of f) (e : TypeId) :
    StableFrom F s fun s => x.Is s.2 t e := by
  intro s₁ s₂ h₁ h₂ he
  obtain ⟨ht', hsame⟩ := ground.subject_kept h₁ ht
  cases x with
  | whole => exact is_whole.mpr (is_whole.mp he)
  | part u => exact is_part.mpr (is_part.mp he)
  | element slot => exact ground.element_kept h₂ ht' (hsame.trans hf) hx he
  | rest slots =>
    obtain ⟨n, rfl⟩ := hx
    exact ground.remainder_kept h₂ ht' (hsame.trans hf) he

theorem Ground.stable_check (hA : ∀ a b, Stable F (A a b)) (hA' : ∀ a b, Stable F (A' a b))
    {check : Check} (hc : check.Between f g) :
    StableFrom F s fun s => check.Holds s.2 (A · · s) (A' · · s) t p := by
  intro s₁ s₂ h₁ h₂ h
  cases check with
  | settled holds => exact h
  | asked q =>
    obtain ⟨e, he, h⟩ := h
    refine ⟨e, ground.stable_operand ht hf hc.operand e h₁ h₂ he, ?_⟩
    cases hi : q.inward <;> rw [hi] at h
    · exact hA _ _ h₂ h
    · exact hA' _ _ h₂ h

variable [Progression F]

include hp hg

/-- What a question is about can be had, in a store where it is found again. -/
theorem Ground.fetch {q : Question} (hq : q.Between f g) :
    Leads F (liftM (q.operand.fetch t) : MatchM TypeId) s fun e s' =>
      Subject s'.2 e ∧ (q.operand.fetch t).run s'.2 = (e, s'.2) := by
  have hx := hq.operand
  cases ho : q.operand with
  | whole => exact Leads.pure ⟨ht, rfl⟩
  | part u =>
    rw [ho] at hx
    refine Leads.pure ⟨?_, rfl⟩
    rcases hx with hx | rfl
    · exact ground.subject_child ht (Store.mentions_of_form hf ▸ hx)
    · exact ground.unknown ht
  | element slot =>
    rw [ho] at hx
    exact ground.element ht hf hx
  | rest slots =>
    rw [ho] at hx
    obtain ⟨n, rfl⟩ := hx
    obtain ⟨slot, hm, hrest, _⟩ := hq.rest ho
    exact ground.remainder n ht hf hp hg hm hrest

variable (hA : ∀ a b, Stable F (A a b)) (hB : ∀ a b, Stable F (B a b))
variable (hA' : ∀ a b, Stable F (A' a b)) (hB' : ∀ a b, Stable F (B' a b))
variable (hask : Asks F Subject Pattern s₀ (fun a b => ask ⟨a, b, v⟩) A B)
variable (hpar : AsksInto F Subject Pattern s₀ (fun a b => askParameter ask a b v) A' B')
variable (hs : F s₀ s)

include hB hB' hask hpar hs

/-- A question about parts is decided by the answer to it. -/
theorem decides_question {q : Question} (hq : q.Between f g) :
    Decides F (q.run ask ⟨t, p, v⟩) s (fun s => q.Holds s.2 (A · · s) (A' · · s) t p)
      (fun s => q.Holds s.2 (B · · s) (B' · · s) t p) := by
  have hb : Pattern s.2 (q.against.getD p) := by
    cases ha : q.against with
    | none => exact hp
    | some b => exact ground.pattern_child hp (Store.mentions_of_form hg ▸ hq.against ha)
  obtain ⟨operand, against, inward⟩ := q
  have hkept := ground.stable_operand ht hf hq.operand
  cases inward with
  | false =>
    exact .built (ground.fetch ht hp hf hg hq) hkept (fun e => (hB e _).from s) fun e s₁ h₁ he =>
      hask s₁ (Evolution.trans hs h₁) e _ he (ground.pattern_kept h₁ hb).1
  | true =>
    obtain ⟨sig, hsig⟩ := hq.inward rfl
    have hinto :=
      hpar s.2 p sig hp (hsig.imp (hg.trans <| congrArg some ·) (hg.trans <| congrArg some ·))
    exact .built (ground.fetch ht hp hf hg hq) hkept (fun e => (hB' e _).from s) fun e s₁ h₁ he =>
      hinto s₁ (Evolution.trans hs h₁) e _ he (ground.pattern_kept h₁ hb).1

include hA hA'

/-- If the questions about the parts are decided, so is the inquiry. -/
theorem decides_inquiry {i : Inquiry} (hi : i.Between f g) :
    Decides F (i.run ask ⟨t, p, v⟩) s (fun s => i.Holds s.2 (A · · s) (A' · · s) t p)
      (fun s => i.Holds s.2 (B · · s) (B' · · s) t p) := by
  have subject {u : TypeId} {s' : State} (hs' : F s s') (hu : Subject s.2 u) : Subject s'.2 u :=
    (ground.subject_kept hs' hu).1
  have pattern {u : TypeId} {s' : State} (hs' : F s s') (hu : Pattern s.2 u) : Pattern s'.2 u :=
    (ground.pattern_kept hs' hu).1
  cases i with
  | all checks =>
    refine .all (fun c hc => ground.stable_check ht hf hA hA' (hi c hc))
      (fun c hc => ground.stable_check ht hf hB hB' (hi c hc)) fun c hc s' hs' => ?_
    have hb := hi c hc
    cases c with
    | settled holds => exact .test id id
    | asked q =>
      exact decides_question ground (subject hs' ht) (pattern hs' hp)
        ((ground.subject_kept hs' ht).2.trans hf) ((ground.pattern_kept hs' hp).2.trans hg) hB hB'
        hask hpar (Evolution.trans hs hs') hb
  | first members =>
    cases hi
    refine .any (fun m _ => (hB t m).from s) fun m hm s' hs' => ?_
    have hmember : Pattern s.2 m := ground.pattern_child hp (Store.mentions_of_form hg ▸ hm)
    exact hask s' (Evolution.trans hs hs') _ _ (subject hs' ht) (pattern hs' hmember)
  | each members =>
    cases hi
    refine .some (fun m _ => (hA m p).from s) (fun m _ => (hB m p).from s) fun m hm s' hs' => ?_
    have hmember : Subject s.2 m := ground.subject_child ht (Store.mentions_of_form hf ▸ hm)
    exact hask s' (Evolution.trans hs hs') _ _ (subject hs' hmember) (pattern hs' hp)

omit hf hg in
/-- If the questions about the parts are decided, what the matcher runs decides the clause that
assignability asks for. -/
theorem decides_matchStructure {b : Node} (hb : s.2.lookup p = some b) :
    Decides F (matchStructure ask ⟨t, p, v⟩ b) s
      (fun s => s.2.Clause (A · · s) (A' · · s) t p)
      (fun s => s.2.Clause (B · · s) (B' · · s) t p) := by
  have hg := Store.form_of_lookup hb
  rw [matchStructure_eq]
  refine Decides.read ?_
  unfold Store.inquiry
  cases hf : s.2.form? t with
  | none =>
    refine (Decides.no fun h => ?_ : Decides F (pure false) s _ _)
    obtain ⟨f, g, hf', _⟩ := h.forms
    cases hf.symm.trans hf'
  | some f =>
    refine (decides_inquiry ground ht hp hf hg hA hB hA' hB' hask hpar hs
      (Form.between_inquiry t f _)).mono (fun s' hs' h => ?_) (Store.clause_iff p hf hg).mp
    exact (Store.clause_iff p ((ground.subject_kept hs' ht).2.trans hf)
      ((ground.pattern_kept hs' hp).2.trans hg)).mpr h

end Inquiries

end TypeCalculus.Matcher
