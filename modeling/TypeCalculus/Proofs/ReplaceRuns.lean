import TypeCalculus.Proofs.MatchRuns
import TypeCalculus.Proofs.Replacing

namespace TypeCalculus

namespace Store

/-- Only a type that has a body reaches anything. -/
theorem lookup_of_scan {st : Store} {test : Node → Bool} {t : TypeId}
    (h : st.reaches test t = true) : (st.lookup t).isSome := by
  obtain ⟨u, hu, _⟩ := List.any_eq_true.mp h
  obtain ⟨⟨_, hl⟩, w, hw, hr⟩ := discover_sound (fun mentioned rest t => by simp) hu
  obtain rfl := List.mem_singleton.mp hw
  rcases Relation.ReflTransGen.cases_head hr with rfl | ⟨c, hc, _⟩
  · exact hl
  · unfold mentions at hc
    split at hc
    · rename_i hn
      simp [hn]
    · simp at hc

theorem Container.form {st : Store} {t : TypeId} {f : Form} (h : st.Container t)
    (hf : st.form? t = some f) : f.isContainer = true := by
  obtain ⟨body, hb, hk⟩ := h
  cases (form_of_lookup hb).symm.trans hf
  exact (form_isContainer st body).trans hk

theorem container_of_form {st : Store} {t : TypeId} {f : Form} (hf : st.form? t = some f)
    (hk : f.isContainer = true) : st.Container t := by
  obtain ⟨body, hb, rfl⟩ := lookup_of_form hf
  exact ⟨body, hb, form_isContainer st body ▸ hk⟩

end Store

namespace Substitution

variable {r : WalkRules}

structure Ready (r : WalkRules) (s : State) : Prop where
  good : r.Good s.2
  infers : s.1.infers.AreOf r.Fit s.2
  params : s.1.params.AreOf r.Fit s.2
  memo {t a : TypeId} : s.1.memo.get? t = some a → r.Fit s.2 a

/-- A substitution that begins with bindings that may be used. -/
theorem Ready.ofBindings {st : Store} (hg : r.Good st) {bindings : Bindings}
    (hb : bindings.AreOf r.Fit st) : Ready r (.ofBindings bindings, st) :=
  ⟨hg, hb, (fun _ _ h => by cases h), fun h => by cases h⟩

structure Upholds (r : WalkRules) (s s' : State) : Prop where
  store : r.Evolves s.2 s'.2
  guard : s.1.guard.Kept s'.1.guard
  ready : Ready r s → Ready r s'

instance : Foregoing r.Firm (Upholds r) where
  refl s := ⟨Evolution.refl s.2, .refl _, id⟩
  trans h h' := ⟨Evolution.trans h.store h'.store, h.guard.trans h'.guard,
    fun hs => h'.ready (h.ready hs)⟩
  before h hw := r.ahead h.store hw

variable {s : State}

theorem Upholds.lift {st' : Store} (h : r.Evolves s.2 st') : Upholds r s (s.1, st') where
  store := h
  guard := .refl _
  ready hs := {
    good := r.good h hs.good
    infers := hs.infers.kept hs.good h
    params := hs.params.kept hs.good h
    memo := fun hm => r.later hs.good h (hs.memo hm) }

theorem runs_remember {t a : TypeId} (ha : r.Fit s.2 a) :
    Runs r.Firm (Upholds r) (remember t a) s fun _ s' => s'.2 = s.2 := by
  apply runs_modify _ rfl
  refine ⟨Evolution.refl _, .refl _, fun hs => ⟨hs.good, hs.infers, hs.params, fun {u b} hu => ?_⟩⟩
  rw [Dict.get?_insert] at hu
  split at hu
  · cases hu
    exact ha
  · exact hs.memo hu

variable (hs : Ready r s)

include hs in
theorem fit_later {s' : State} (h : Upholds r s s') {t : TypeId} (ht : r.Fit s.2 t) :
    r.Fit s'.2 t :=
  r.later hs.good h.store ht

include hs in
/-- What may be used can be used from then on. -/
theorem stable_fit (t : TypeId) : StableFrom (Upholds r) s fun s' => r.Fit s'.2 t :=
  fun _ _ h h' ht => fit_later (h.ready hs) h' ht

section Step

variable {replace : TypeId → SubstM TypeId}
variable (hrep : ∀ (t : TypeId) (s : State), Ready r s → r.Fit s.2 t →
  Runs r.Firm (Upholds r) (replace t) s fun a s' => r.Fit s'.2 a)
variable {t : TypeId} (ht : r.Fit s.2 t)

include hrep hs ht

/-- The levels below replace the parts of a type by types that may be used. -/
theorem replaces_parts : Replaces r.Firm (Upholds r) (fun _ y s => r.Fit s.2 y)
    (fun _ ys s => ∀ y ∈ ys, r.Fit s.2 y.type) replace (s.2.mentions t) s where
  stable _ y := stable_fit hs y
  stable_slot _ _ _ _ h₁ h₂ h y hy := stable_fit hs y.type h₁ h₂ (h y hy)
  replaces h' hc := hrep _ _ (h'.ready hs) (fit_later hs h' (r.child hs.good ht hc))
  splices h' hu y hy := by
    rcases Store.mem_splice hy with he | hm
    · exact he ▸ hu
    · exact r.child (h'.ready hs).good hu hm
  reads h' hu hw := (r.steady (h'.ready hs).good hu (r.firm hw)).form

/-- What is put together out of the parts may be used, and is a container if the type is one. -/
theorem runs_rebuildParts {x : Form} (hf : s.2.form? t = some x) (hl : x.isLeaf = false) :
    Runs r.Firm (Upholds r) (replaceForm replace x >>= fun y => liftM y.build) s fun a s' =>
      r.Fit s'.2 a ∧ (s'.2.Indexed → s.2.Container t → s'.2.Container a) := by
  apply ((replaces_parts hs hrep ht).form (fun c hc => Store.mentions_of_form hf ▸ hc) hl).bind
  intro y s₁ h₁ hy
  have hbuild := r.build (f := y) (h₁.ready hs).good
    (hy.forall_mentions (P := fun c => r.Fit s₁.2 c) (fun _ _ h => h) fun _ _ h => h)
    fun hd => hy.admissible ((r.tidy hd hs.good).regular hf).admissible
  refine runs_lift (hbuild.narrow r.firm) (.lift hbuild.leads.1)
    ⟨hbuild.leads.2, fun hi hc => ?_⟩
  have hk := hc.form hf
  have hmade := Form.made_build (hy.isExact_container hk)
    ((r.grown hbuild.leads.1).indexed.mp hi)
  exact Store.container_of_form hmade.form (hy.isContainer.trans hk)

/-- A type is rebuilt out of what its parts were replaced by, and a container as one. -/
theorem runs_rebuild : Runs r.Firm (Upholds r) (rebuild replace t) s fun a s' =>
    r.Fit s'.2 a ∧ (s'.2.Indexed → s.2.Container t → s'.2.Container a) := by
  have leaf {x : Form} (hf : s.2.form? t = some x) (hk : x.isContainer = false) (st' : Store)
      (a : TypeId) : st'.Indexed → s.2.Container t → st'.Container a := by
    intro _ hc
    cases hk.symm.trans (hc.form hf)
  rw [rebuild_eq]
  apply runs_getStore
  · cases hf : s.2.form? t with
    | none =>
      refine Runs.pure ⟨ht, ?_⟩
      rintro _ ⟨body, hb, _⟩
      cases hf.symm.trans (Store.form_of_lookup hb)
    | some x =>
      cases x with
      | intrinsic kind => exact Runs.pure ⟨ht, leaf hf rfl _ _⟩
      | literal value => exact Runs.pure ⟨ht, leaf hf rfl _ _⟩
      | infer name =>
        apply runs_get
        refine Runs.pure ⟨?_, leaf hf rfl _ _⟩
        cases hb : s.1.infers.get? name with
        | none => exact r.intrinsic hs.good rfl
        | some u => exact hs.infers name u hb
      | param name =>
        apply runs_get
        refine Runs.pure ⟨?_, leaf hf rfl _ _⟩
        cases hb : s.1.params.get? name with
        | none => exact ht
        | some u => exact hs.params name u hb
      | _ => exact runs_rebuildParts hs hrep ht hf rfl
  · intro st' hw
    rw [(r.steady hs.good ht (r.firm hw)).form]

/-- The placeholder that is given a body was reserved on the way. -/
theorem leads_rebuildReserved (hr : s.2.isReserved t = true) (hsome : (s.2.lookup t).isSome) :
    Leads (Upholds r) (rebuildReserved replace t) s fun a s' => r.Fit s'.2 a := by
  have hopen := r.opens ht hr
  have hfirst : Leads (Upholds r) (Rules.openReserved replace t) s fun u s' =>
      s.2.size ≤ u.1 ∧ s'.2.cells[u.1]? = some (.reserved none) ∧ r.Fit s'.2 u.1 ∧
        (r.Strict → s'.2.Container u.2) := by
    obtain ⟨hreserve, hfit⟩ := r.reserve hopen hs.good
    obtain ⟨_, hfresh, hcell⟩ := Discipline.leads_reserve .free s.2
    have hlift : Leads (Upholds r) (liftM Store.reserve : SubstM TypeId) s fun u s' =>
        u = s.2.size ∧ s'.2.cells[u]? = some (.reserved none) ∧ r.Fit s'.2 u :=
      leads_lift (.lift hreserve) ⟨hfresh, hcell, hfit⟩
    apply hlift.bind
    rintro fresh s₁ h₁ ⟨rfl, hcell, hfit⟩
    have hs₁ := h₁.ready hs
    have hlt : s.2.size < s₁.2.size := (List.getElem?_eq_some_iff.mp hcell).1
    apply (runs_remember hfit).leads.bind
    intro _ s₂ h₂ _
    have hs₂ := h₂.ready hs₁
    have hall := Evolution.trans h₁ h₂
    apply (runs_rebuild hs₂ hrep (fit_later hs hall ht)).leads.bind
    intro a s₃ h₃ ha
    apply Leads.pure
    refine ⟨Nat.le_refl _, ?_, fit_later hs₂ h₃ (fit_later hs₁ h₂ hfit), fun hd => ?_⟩
    · rw [((r.grown h₂.store).trans (r.grown h₃.store)).cell hlt]
      exact hcell
    · apply ha.2 (r.indexed hd (h₃.ready hs₂).good)
      obtain ⟨body, hb⟩ := Option.isSome_iff_exists.mp hsome
      exact ⟨body, ((r.grown hall.store).lookup (r.valid hd ht)).trans hb,
        (r.tidy hd hs.good).container hr hb⟩
  rw [Rules.rebuildReserved_eq]
  apply hfirst.andThen
  rintro ⟨fresh, rebuilt⟩ s' h' ⟨hfresh, hcell, hfit, hcontainer⟩
  have hs' := h'.ready hs
  rw [Rules.run_closeReserved hcell]
  have hev := r.fill h'.store hs'.good hfresh hcell hcontainer
  refine ⟨⟨hev, h'.guard, fun _ => ?_⟩, r.filled hopen hfit⟩
  exact ⟨r.good hev hs.good, fun n t h => r.filled hopen (hs'.infers n t h),
    fun n t h => r.filled hopen (hs'.params n t h), fun h => r.filled hopen (hs'.memo h)⟩

theorem runs_rebuildAny (hsome : (s.2.lookup t).isSome) :
    Runs r.Firm (Upholds r) (rebuildAny replace t) s fun a s' => r.Fit s'.2 a := by
  unfold rebuildAny
  apply runs_getStore
  · split
    · rename_i hr
      exact .of_leads (leads_rebuildReserved hs hrep ht hr hsome)
        fun _ _ h => r.closed h (r.opens ht hr)
    · apply (runs_rebuild hs hrep ht).bind
      intro a s₁ h₁ ha
      apply (runs_remember ha.1).bind
      intro _ s₂ _ he
      apply Runs.pure
      rw [he]
      exact ha.1
  · intro st' hw
    have hno : s.2.isReserved t = false := by
      cases hr : s.2.isReserved t with
      | false => rfl
      | true => exact absurd (r.opens ht hr) (r.closed hw)
    rw [r.unreserved hs.good ht hw, hno]

/-- One level of the walk, if the level below keeps to the rules. -/
theorem runs_step : Runs r.Firm (Upholds r) (step replace t) s fun a s' => r.Fit s'.2 a := by
  unfold step
  split
  · exact Runs.pure ht
  · apply runs_get
    split
    · rename_i known hm
      exact Runs.pure (hs.memo hm)
    · apply runs_getStore
      · split
        · rename_i hbound
          have inside (g : Guard TypeId) : Ready r (Guarded.setGuard g s.1, s.2) :=
            ⟨hs.good, hs.infers, hs.params, hs.memo⟩
          apply runs_visit
          · exact fun g _ => runs_rebuildAny (inside g) hrep ht (Store.lookup_of_scan hbound)
          · intro g hi a s' h ha
            have hs' := h.ready (inside g)
            exact ⟨⟨h.store, hi.leave h.guard,
              fun _ => ⟨hs'.good, hs'.infers, hs'.params, hs'.memo⟩⟩, ha⟩
          · exact fun g hk => ⟨⟨Evolution.refl _, hk, fun _ => inside g⟩, ht,
              r.intrinsic hs.good rfl⟩
        · apply (runs_remember ht).bind
          intro _ s₁ _ he
          apply Runs.pure
          rw [he]
          exact ht
      · intro st' hw
        have hagain := r.firm hw
        have hscan : st'.containsBound s.1.params.contains t =
            s.2.containsBound s.1.params.contains t :=
          (r.steady hs.good ht hagain).scan (r.founded hs.good hagain) (r.wider hagain) _
        simp only [hscan]

end Step

/-- However deep the walk may still go. -/
theorem runs_descend (room : Nat) {s : State} (hs : Ready r s) {t : TypeId} (ht : r.Fit s.2 t) :
    Runs r.Firm (Upholds r) (descend step (fun _ => return .never) room t) s
      fun a s' => r.Fit s'.2 a := by
  refine descend_induction (motive := fun f => ∀ (t : TypeId) (s : State), Ready r s →
    r.Fit s.2 t → Runs r.Firm (Upholds r) (f t) s fun a s' => r.Fit s'.2 a) ?_ ?_ room t s hs ht
  · exact fun t s hs _ => Runs.pure (r.intrinsic hs.good rfl)
  · exact fun f hf t s hs ht => runs_step hs hf ht

/-- The only placeholders that a substitution gives bodies to are those that it has reserved itself.
Replacing in types without placeholders once more, in any wider store, gives the same answer. -/
theorem runs_apply (hs : Ready r s) {t : TypeId} (ht : r.Fit s.2 t) :
    Runs r.Firm (Upholds r) (apply t) s fun a s' => r.Fit s'.2 a :=
  runs_get (runs_descend _ hs ht)

/-- A substitution that is used once keeps to the rules, and is repeated in every later store
without placeholders. -/
theorem runs_applyOnce {first : Substitution} {st : Store} (hs : Ready r (first, st)) {t : TypeId}
    (ht : r.Fit st t) : Runs r.Firm r.Evolves (first.applyOnce t) st fun a st' => r.Fit st' a := by
  apply (runs_start (runs_apply hs ht) fun h => h.store).bind
  intro answer st' _ h
  exact Runs.pure h

end Substitution

end TypeCalculus
