import TypeCalculus.Evaluator.Conditional
import TypeCalculus.Proofs.Replacing

namespace TypeCalculus

open Store (Kind Later)

def Progress.type? : Progress → Option TypeId
  | .running placeholder _ => placeholder
  | .done answer => some answer

def Guard.rested {κ : Type} (g : Guard κ) : Guard κ := if g.depth = 0 then g.reset else g

/-- A guard that was kept is as good as new at the outermost level. -/
theorem Guard.Kept.rested {κ : Type} {g g' : Guard κ} (h : g.Kept g')
    (hb : g.depth = g.visiting.length) : g.Kept g'.rested := by
  unfold Guard.rested
  split
  · rename_i hd
    have hg : g.depth = 0 := h.depth.symm.trans hd
    have hv : g.visiting = [] := List.length_eq_zero_iff.mp (hb.symm.trans hg)
    exact ⟨h.limits, hv.symm, hg.symm, h.overrun, h.misused⟩
  · exact h

theorem Guard.rested_overrun {κ : Type} (g : Guard κ) : g.rested.overrun = g.overrun := by
  unfold Guard.rested
  split <;> rfl

namespace Evaluator

abbrev State := Evaluator × Store

/-- How a computation ends that has an answer. -/
theorem run_finish (task : Task) (answer : TypeId) (s : State) :
    Action.run (settle >>= fun _ => note task (.done answer) >>=
      fun _ => (pure answer : EvalM TypeId))
      s = (answer,
        { s.1 with guard := s.1.guard.rested, memo := s.1.memo.insert task (.done answer) },
        s.2) := by
  have hsettle : Action.run settle s = (⟨⟩, { s.1 with guard := s.1.guard.rested }, s.2) := by
    show (_, (if s.1.guard.depth = 0 then { s.1 with guard := s.1.guard.reset } else s.1), _) = _
    unfold Guard.rested
    split <;> rfl
  rw [Action.run_bind, hsettle]
  rfl

/-- A computation that is not known yet, as it goes on after the guard has answered. -/
theorem run_retrieve {task : Task} {s : State} (h : s.1.memo.get? task = none)
    (compute : EvalM TypeId) : Action.run (retrieve task compute) s =
      let g := s.1.guard.enter task
      match g.1 with
      | .entered =>
        let r := Action.run compute
          ({ s.1 with guard := g.2, memo := s.1.memo.insert task (.running none false) }, s.2)
        (r.1, { r.2.1 with
          guard := (r.2.1.guard.leave task).rested
          memo := r.2.1.memo.insert task (.done r.1) }, r.2.2)
      | _ => (.never, { s.1 with guard := g.2 }, s.2) := by
  have hget : Action.run (get : EvalM Evaluator) s = (s.1, s) := rfl
  unfold retrieve
  rw [Action.run_bind, hget]
  simp only [h]
  rw [Action.run_bind, run_visit]
  cases he : (s.1.guard.enter task).1 with
  | entered =>
    have he : ((Guarded.guard s.1).enter task).1 = .entered := he
    simp only [he]
    exact run_finish ..
  | cycle =>
    have he : ((Guarded.guard s.1).enter task).1 = .cycle := he
    simp only [he]
    rfl
  | depthExceeded =>
    have he : ((Guarded.guard s.1).enter task).1 = .depthExceeded := he
    simp only [he]
    rfl
  | iterationExceeded =>
    have he : ((Guarded.guard s.1).enter task).1 = .iterationExceeded := he
    simp only [he]
    rfl

/-- All that asking for an answer can come to. -/
theorem leads_retrieve {F : State → State → Prop} {task : Task} {compute : EvalM TypeId} {s : State}
    {Q : TypeId → State → Prop}
    (known : ∀ a, s.1.memo.get? task = some (.done a) → F s s ∧ Q a s)
    (blank : ∀ r, s.1.memo.get? task = some (.running none r) → F s s ∧ Q .never s)
    (again : ∀ p r, s.1.memo.get? task = some (.running (some p) r) →
      let s' := ({ s.1 with memo := s.1.memo.insert task (.running (some p) true) }, s.2)
      F s s' ∧ Q p s')
    (refused : s.1.memo.get? task = none → ∀ g, s.1.guard.Kept g →
      task ∈ s.1.guard.visiting ∨ g.overrun = true →
      F s ({ s.1 with guard := g }, s.2) ∧ Q .never ({ s.1 with guard := g }, s.2))
    (computed : s.1.memo.get? task = none → ∀ g, Guard.Inside task s.1.guard g →
      let r := Action.run compute
        ({ s.1 with guard := g, memo := s.1.memo.insert task (.running none false) }, s.2)
      let s' := ({ r.2.1 with
        guard := (r.2.1.guard.leave task).rested
        memo := r.2.1.memo.insert task (.done r.1) }, r.2.2)
      F s s' ∧ Q r.1 s') :
    Leads F (retrieve task compute) s Q := by
  cases h : s.1.memo.get? task with
  | none =>
    unfold Leads
    rw [run_retrieve h]
    rcases Guard.enter_cases s.1.guard task with ⟨he, hi⟩ | ⟨he, hm, _, hk⟩ | ⟨he, ho, hk⟩
    · simp only [he]
      exact computed h _ hi
    · simp only [he]
      exact refused h _ hk (.inl hm)
    · rcases he with he | he <;> simp only [he] <;> exact refused h _ hk (.inr ho)
  | some progress =>
    unfold retrieve
    apply leads_get
    rw [h]
    rcases progress with ⟨_ | p, r⟩ | a
    · exact blank r h
    · exact again p r h
    · exact known a h

abbrev asked (s : State) (task : Task) : State :=
  ({ s.1 with observed := s.1.observed ∧ s.1.InStep task }, s.2)

abbrev begun (s : State) (task : Task) (g : Guard Task) : State :=
  ({ s.1 with guard := g, memo := s.1.memo.insert task (.running none false) }, s.2)

abbrev finished (s : State) (task : Task) (answer : TypeId) : State :=
  ({ s.1 with guard := (s.1.guard.leave task).rested, memo := s.1.memo.insert task (.done answer) },
    s.2)

theorem leads_memoized {F : State → State → Prop} [Evolution F] {task : Task}
    {compute : EvalM TypeId} {s : State} {Q : TypeId → State → Prop} (hF : F s (asked s task))
    (h : Leads F (retrieve task compute) (asked s task) Q) : Leads F (memoized task compute) s Q :=
  Leads.bind (Q := fun _ s' => s' = asked s task) ⟨hF, rfl⟩ fun _ _ _ he => he ▸ h

section Branch

variable {F : State → State → Prop} [Evolution F] {s : State}
variable (later : ∀ {s s' : State}, F s s' → Later s.2 s'.2)
variable (lift : ∀ {s : State} {st' : Store}, Later s.2 st' → F s (s.1, st'))
variable {P B : Store → TypeId → Prop} (sides : Matcher.Sides P B)

include lift

omit [Evolution F] in
theorem leads_grown {α : Type} {x : StoreM α} {Q : α → Store → Prop} (h : Leads Later x s.2 Q) :
    Leads F (liftM x : EvalM α) s fun a s' => Q a s'.2 :=
  leads_lift (lift h.1) h.2

include sides

omit [Evolution F] in
/-- What a match binds is of the kind that the subject is of. -/
theorem leads_matches (hw : s.2.WellFormed) {subject pattern : TypeId} (ht : P s.2 subject)
    (hp : B s.2 pattern) :
    Leads F (matches? subject pattern) s fun found s' =>
      ∀ bindings, found = some bindings → bindings.AreOf P s'.2 :=
  leads_get (leads_grown lift (leads_matchPattern sides hw ht hp _))

include later

/-- The answer of a conditional is of a kind that the instances of its branches are of. -/
theorem leads_chooseBranch (hw : s.2.WellFormed) {c : Conditional} {subject : TypeId}
    (ht : P s.2 subject) (hp : B s.2 c.pattern)
    (hinst : ∀ st, Later s.2 st → ∀ branch ∈ [c.yes, c.no], ∀ bindings : Bindings,
      bindings.AreOf P st → Leads Later (instantiate c branch bindings subject) st
        fun a st' => P st' a) :
    Leads F (chooseBranch c subject) s fun a s' => P s'.2 a := by
  have hempty (st : Store) : Bindings.AreOf P .empty st := nofun
  unfold chooseBranch
  refine (leads_matches lift sides hw ht hp).bind fun found s₁ h₁ hfound => ?_
  split
  · have hbind : (found.getD .empty).AreOf P s₁.2 := by
      cases found with
      | none => exact hempty _
      | some b => exact hfound b rfl
    refine (leads_grown lift (hinst _ (later h₁) _ (by simp) _ hbind)).bind fun yes s₂ h₂ hyes => ?_
    have h₁₂ := Evolution.trans h₁ h₂
    have hw₂ := (later h₁₂).sound hw
    refine (leads_grown lift (hinst _ (later h₁₂) _ (by simp) _ (hempty _))).bind
      fun no s₃ h₃ hno => ?_
    refine leads_grown lift (sides.subject.leads_mkUnion ((later h₃).sound hw₂) fun t hmem => ?_)
    rcases List.mem_pair.mp hmem with rfl | rfl
    · exact sides.subject.later hw₂ (later h₃).grown hyes
    · exact hno
  · cases found with
    | some b => exact leads_grown lift (hinst _ (later h₁) _ (by simp) _ (hfound b rfl))
    | none => exact leads_grown lift (hinst _ (later h₁) _ (by simp) _ (hempty _))

end Branch

/-- A branch, instantiated with types of a kind, is of that kind, if the types are at which it runs
into itself. -/
theorem leads_instantiate {P : Store → TypeId → Prop} (kind : Kind P)
    (free : ∀ st t, st.WellFormed → t < st.size → st.InferFree t → P st t) {st : Store}
    (hw : st.WellFormed) (c : Conditional) {branch : TypeId} (hb : branch < st.size)
    (cycle : ∀ t, st.CycleEntry branch t → P st t) {bindings : Bindings}
    (hbind : bindings.AreOf P st) {subject : TypeId} (ht : P st subject) :
    Leads Later (instantiate c branch bindings subject) st fun a st' => P st' a := by
  have hempty : Bindings.AreOf P .empty st := nofun
  unfold instantiate
  split
  · exact Substitution.leads_applyOnce kind hw hb free rfl rfl hbind (hempty.insert ht) cycle
  · exact Substitution.leads_applyOnce kind hw hb free rfl rfl hbind hempty cycle

section Kinds

variable (V : Operator → Store → TypeId → Prop)

/-- The store is well formed, and what is remembered for an operator is of the operator's kind. -/
structure Held (s : State) : Prop where
  sound : s.2.WellFormed
  memo {task : Task} {progress : Progress} {t : TypeId} : s.1.memo.get? task = some progress →
    progress.type? = some t → V task.operator s.2 t

structure Keeps (s s' : State) : Prop where
  later : Later s.2 s'.2
  running {task : Task} {p : TypeId} {r : Bool} :
    s.1.memo.get? task = some (.running (some p) r) →
    ∃ r', s'.1.memo.get? task = some (.running (some p) r')
  held : Held V s → Held V s'

instance : Evolution (Keeps V) where
  refl _ := ⟨Evolution.refl _, fun h => ⟨_, h⟩, id⟩
  trans h h' := ⟨Evolution.trans h.later h'.later, fun hr => by
    obtain ⟨_, hr⟩ := h.running hr
    exact h'.running hr, fun hs => h'.held (h.held hs)⟩

variable {V} (hV : ∀ operator, Kind (V operator)) {s : State}

/-- An answer of the right kind may be remembered. -/
theorem Held.insert (hs : Held V s) {task : Task} {progress : Progress} {g : Guard Task}
    (h : ∀ t, progress.type? = some t → V task.operator s.2 t) :
    Held V ({ s.1 with guard := g, memo := s.1.memo.insert task progress }, s.2) where
  sound := hs.sound
  memo hm ht := by
    rw [Dict.get?_insert] at hm
    split at hm
    · rename_i he
      cases hm
      exact he ▸ h _ ht
    · exact hs.memo hm ht

include hV

theorem Keeps.store {st' : Store} (h : Later s.2 st') : Keeps V s (s.1, st') where
  later := h
  running hr := ⟨_, hr⟩
  held hs := ⟨h.sound hs.sound, fun hm ht => (hV _).later hs.sound h.grown (hs.memo hm ht)⟩

theorem leads_store {α : Type} {x : StoreM α} {Q : α → Store → Prop} (h : Leads Later x s.2 Q) :
    Leads (Keeps V) (liftM x : EvalM α) s fun a s' => Q a s'.2 :=
  leads_lift (Keeps.store hV h.1) h.2

omit hV in
/-- Handing out a placeholder changes nothing else. -/
theorem keeps_again {task : Task} {p : TypeId} {r : Bool}
    (hm : s.1.memo.get? task = some (.running (some p) r)) :
    Keeps V s ({ s.1 with memo := s.1.memo.insert task (.running (some p) true) }, s.2) := by
  refine ⟨Evolution.refl _, fun {other q b} hq => ?_, fun hs => hs.insert fun t ht => ?_⟩
  · rw [Dict.get?_insert]
    split
    · rename_i he
      rw [he, hm] at hq
      cases hq
      exact ⟨_, rfl⟩
    · exact ⟨_, hq⟩
  · cases ht
    exact hs.memo hm rfl

omit hV in
/-- A computation that keeps what is known is finished by remembering its answer. -/
theorem Held.keeps_done (hs : Held V s) {task : Task} (hm : s.1.memo.get? task = none)
    {g : Guard Task} {s' : State}
    (hk : Keeps V
      ({ s.1 with guard := g, memo := s.1.memo.insert task (.running none false) }, s.2) s')
    {a : TypeId} (ha : V task.operator s'.2 a) (g' : Guard Task) :
    Keeps V s ({ s'.1 with guard := g', memo := s'.1.memo.insert task (.done a) }, s'.2) := by
  refine ⟨hk.later, fun {other q b} hq => ?_, fun _ => ?_⟩
  · have hne : other ≠ task := by
      rintro rfl
      simp [hm] at hq
    rw [Dict.get?_insert, if_neg hne]
    refine hk.running (r := b) ?_
    rw [Dict.get?_insert, if_neg hne]
    exact hq
  · have hopen : Held V
        ({ s.1 with guard := g, memo := s.1.memo.insert task (.running none false) }, s.2) :=
      hs.insert fun t ht => by cases ht
    refine (hk.held hopen).insert fun t ht => ?_
    cases ht
    exact ha

/-- Answers of the right kind are remembered. The computation may give its own task a
placeholder. -/
theorem leads_remembered {task : Task} {compute : EvalM TypeId} (hs : Held V s)
    (hc : ∀ s₁ : State, s₁.2 = s.2 → Held V s₁ →
      s₁.1.memo.get? task = some (.running none false) →
      Leads (Keeps V) compute s₁ fun a s' => V task.operator s'.2 a) :
    Leads (Keeps V) (memoized task compute) s fun a s' => V task.operator s'.2 a := by
  refine leads_memoized ⟨Evolution.refl _, fun hr => ⟨_, hr⟩, fun hs => { hs with }⟩ ?_
  let s₀ := asked s task
  have hs₀ : Held V s₀ := { hs with }
  refine leads_retrieve (fun a h => ⟨Evolution.refl s₀, hs₀.memo h rfl⟩)
    (fun r h => ⟨Evolution.refl s₀, (hV _).intrinsic .never hs₀.sound⟩)
    (fun p r h => ⟨keeps_again h, hs₀.memo h rfl⟩) (fun h g _ _ => ?_) (fun h g _ => ?_)
  · exact ⟨⟨Evolution.refl _, fun hr => ⟨_, hr⟩, fun hs => { hs with }⟩,
      (hV _).intrinsic .never hs₀.sound⟩
  · obtain ⟨hk, ha⟩ :=
      hc ({ s₀.1 with guard := g, memo := s₀.1.memo.insert task (.running none false) }, s₀.2)
      rfl (hs₀.insert nofun) (by rw [Dict.get?_insert, if_pos rfl])
    exact ⟨hs₀.keeps_done h hk ha _, ha⟩

/-- The union of answers of one kind is of that kind. -/
theorem leads_distribute {P : Store → TypeId → Prop} (kind : Kind P) (hs : Held V s)
    {subject : TypeId} (ht : P s.2 subject) {f : TypeId → EvalM TypeId}
    (hf : ∀ x, P s.2 x → ∀ s', Keeps V s s' → Leads (Keeps V) (f x) s' fun a s'' => P s''.2 a) :
    Leads (Keeps V) (Store.distribute subject f) s fun a s' => P s'.2 a := by
  refine Store.leads_distribute Prod.snd (A := fun _ a s' => P s'.2 a) rfl
    (fun _ a s₁ s₂ h₁ h₂ h => ?_)
    (fun x hx => hf x ?_) (fun _ => kind.intrinsic .never hs.sound) (fun _ _ _ _ _ h => h)
    (fun ys s₁ h₁ _ hys => ?_)
  · exact kind.later (h₁.later.sound hs.sound) h₂.later.grown h
  · rcases (hs.sound.mem_unionMembers hx).1 with rfl | hm
    · exact ht
    · exact kind.child hs.sound ht hm
  · refine leads_store hV (kind.leads_mkUnion (h₁.later.sound hs.sound) fun y hy => ?_)
    obtain ⟨_, _, h⟩ := mem_right_of_forall₂ hys hy
    exact h

/-- The answers of a conditional are of its kind, if the types are at which its branches run into
themselves. -/
theorem leads_applyConditional {id : ConditionalId}
    (free : ∀ st t, st.WellFormed → t < st.size → st.InferFree t → V (.conditional id) st t)
    (hs : Held V s) {subject : TypeId} (ht : V (.conditional id) s.2 subject)
    (cycle : ∀ s', Keeps V s s' → ∀ branch ∈ [(s'.2.conditional id).yes, (s'.2.conditional id).no],
      ∀ t, s'.2.CycleEntry branch t → V (.conditional id) s'.2 t) :
    Leads (Keeps V) (applyConditional id subject) s fun a s' => V (.conditional id) s'.2 a := by
  have hmember (x : TypeId) (hx : V (.conditional id) s.2 x) (s' : State) (h' : Keeps V s s') :
      Leads (Keeps V) (conditionalMember id x) s' fun a s'' => V (.conditional id) s''.2 a := by
    unfold conditionalMember
    refine leads_getStore (leads_remembered hV (h'.held hs) fun s₁ he hs₁ _ => ?_)
    have hx₁ : V (.conditional id) s₁.2 x := he ▸ (hV _).later hs.sound h'.later.grown hx
    have hw₁ := hs₁.sound
    rw [← he]
    obtain ⟨hpattern, hyes, hno⟩ := hw₁.conditional_lt_size id
    refine leads_chooseBranch (fun h => h.later) (Keeps.store hV) (.any (hV _) free)
      hw₁ hx₁ hpattern
      fun st hst branch hb bindings hbind => ?_
    have hlt : branch < s₁.2.size := by
      rcases List.mem_pair.mp hb with rfl | rfl
      · exact hyes
      · exact hno
    refine leads_instantiate (hV _) free (hst.sound hw₁) _ (Nat.lt_of_lt_of_le hlt hst.grown.size)
      (fun t hcycle => ?_) hbind ((hV _).later hw₁ hst.grown hx₁)
    refine (hV _).later hw₁ hst.grown ?_
    have hentry := hw₁.cycleEntry_extends hst.grown hlt hcycle
    rw [he] at hb hentry ⊢
    exact cycle s' h' branch hb t hentry
  unfold applyConditional
  refine leads_getStore ?_
  split
  · exact leads_distribute hV (hV _) hs ht hmember
  · exact hmember subject ht s (Evolution.refl s)

end Kinds

end Evaluator

end TypeCalculus
