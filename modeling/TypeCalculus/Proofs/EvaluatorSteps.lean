import TypeCalculus.Proofs.Branches
import TypeCalculus.Proofs.Mapping

namespace TypeCalculus

def Store.Has (st : Store) : Operator → Prop
  | .conditional id => id < st.conditionals.items.length
  | .mapping id => id < st.mappings.items.length

theorem Store.Extends.has {st st' : Store} (h : st.Extends st') {operator : Operator}
    (ho : st.Has operator) : st'.Has operator := by
  cases operator with
  | conditional id => exact Nat.lt_of_lt_of_le ho h.conditionals.items.length_le
  | mapping id => exact Nat.lt_of_lt_of_le ho h.mappings.items.length_le

namespace Evaluator

open Store (Made)

variable {r : WalkRules}

structure Ready (r : WalkRules) (s : State) : Prop where
  good : r.Good s.2
  memo {task : Task} {progress : Progress} {t : TypeId} : s.1.memo.get? task = some progress →
    progress.type? = some t → r.Fit s.2 t

structure Upholds (r : WalkRules) (s s' : State) : Prop where
  store : r.Evolves s.2 s'.2
  returns : s.1.guard.depth = s.1.guard.visiting.length → s.1.guard.Kept s'.1.guard
  running {task : Task} {p : TypeId} {b : Bool} :
    s.1.memo.get? task = some (.running (some p) b) →
    ∃ b', s'.1.memo.get? task = some (.running (some p) b')
  ready : Ready r s → Ready r s'

instance : Evolution (Upholds r) where
  refl _ := ⟨Evolution.refl _, fun _ => .refl _, fun h => ⟨_, h⟩, id⟩
  trans h h' := by
    refine ⟨Evolution.trans h.store h'.store, fun hd => ?_, fun hr => ?_,
      fun hs => h'.ready (h.ready hs)⟩
    · have hk := h.returns hd
      refine hk.trans (h'.returns ?_)
      rw [hk.depth, hk.visiting, hd]
    · obtain ⟨_, hr⟩ := h.running hr
      exact h'.running hr

variable {s : State}

theorem Upholds.lift {st' : Store} (h : r.Evolves s.2 st') : Upholds r s (s.1, st') :=
  ⟨h, fun _ => .refl _, fun hr => ⟨_, hr⟩,
    fun hs => ⟨r.good h hs.good, fun hm ht => r.later hs.good h (hs.memo hm ht)⟩⟩

/-- As long as the store and the memo stay, only the guard has to be looked at. -/
theorem Upholds.same {e : Evaluator} (hm : e.memo = s.1.memo)
    (hg : s.1.guard.depth = s.1.guard.visiting.length → s.1.guard.Kept e.guard) :
    Upholds r s (e, s.2) :=
  ⟨Evolution.refl _, hg, fun hr => ⟨_, hm ▸ hr⟩, fun hs => ⟨hs.good, fun h => hs.memo (hm ▸ h)⟩⟩

theorem leads_stored {α : Type} {x : StoreM α} {Q : α → Store → Prop}
    (h : Leads r.Evolves x s.2 Q) :
    Leads (Upholds r) (liftM x : EvalM α) s fun a s' => Q a s'.2 :=
  leads_lift (.lift h.1) h.2

theorem Ready.insert (hs : Ready r s) {task : Task} {progress : Progress} {g : Guard Task}
    (h : ∀ t, progress.type? = some t → r.Fit s.2 t) :
    Ready r ({ s.1 with guard := g, memo := s.1.memo.insert task progress }, s.2) where
  good := hs.good
  memo hm ht := by
    rw [Dict.get?_insert] at hm
    split at hm
    · cases hm
      exact h _ ht
    · exact hs.memo hm ht

theorem fit_later (hs : Ready r s) {s' : State} (h : Upholds r s s') {t : TypeId}
    (ht : r.Fit s.2 t) : r.Fit s'.2 t :=
  r.later hs.good h.store ht

theorem stable_fit (hs : Ready r s) (t : TypeId) :
    StableFrom (Upholds r) s fun s' => r.Fit s'.2 t :=
  fun _ _ h h' ht => fit_later (h.ready hs) h' ht

/-- Handing out a placeholder changes nothing else. -/
theorem upholds_again {task : Task} {p : TypeId} {b : Bool}
    (hm : s.1.memo.get? task = some (.running (some p) b)) :
    Upholds r s ({ s.1 with memo := s.1.memo.insert task (.running (some p) true) }, s.2) := by
  refine ⟨Evolution.refl _, fun _ => .refl _, fun {other q c} hq => ?_,
    fun hs => hs.insert fun t ht => ?_⟩
  · rw [Dict.get?_insert]
    split
    · rename_i he
      rw [he, hm] at hq
      cases hq
      exact ⟨_, rfl⟩
    · exact ⟨_, hq⟩
  · cases ht
    exact hs.memo hm rfl

/-- A computation is finished by remembering its answer. -/
theorem Ready.upholds_done (hs : Ready r s) {task : Task} (hm : s.1.memo.get? task = none)
    {g : Guard Task} (hg : Guard.Inside task s.1.guard g) {s' : State}
    (h : Upholds r (begun s task g) s') {a : TypeId} (ha : r.Fit s'.2 a) :
    Upholds r s (finished s' task a) := by
  refine ⟨h.store, fun hd => ?_, fun {other q b} hq => ?_, fun _ => ?_⟩
  · have hinside : g.depth = g.visiting.length := by
      rw [hg.depth, hg.visiting, hd, List.length_cons]
    exact (hg.leave (h.returns hinside)).rested hd
  · have hne : other ≠ task := by
      rintro rfl
      simp [hm] at hq
    rw [Dict.get?_insert, if_neg hne]
    apply h.running (b := b)
    rw [Dict.get?_insert, if_neg hne]
    exact hq
  · have hbegun : Ready r (begun s task g) := hs.insert fun t ht => by cases ht
    apply (h.ready hbegun).insert
    intro t ht
    cases ht
    exact ha

/-- Answers that may be used are remembered. -/
theorem leads_memo (hs : Ready r s) {task : Task} {compute : EvalM TypeId}
    (hc : ∀ s₁ : State, s₁.2 = s.2 → Ready r s₁ →
      s₁.1.memo.get? task = some (.running none false) →
      Leads (Upholds r) compute s₁ fun a s' => r.Fit s'.2 a) :
    Leads (Upholds r) (memoized task compute) s fun a s' => r.Fit s'.2 a := by
  refine leads_memoized (.same rfl fun _ => .refl _) ?_
  have hs₀ : Ready r (asked s task) := ⟨hs.good, hs.memo⟩
  have hnever : r.Fit s.2 .never := r.intrinsic hs.good rfl
  apply leads_retrieve
  · exact fun a h => ⟨Evolution.refl _, hs₀.memo h rfl⟩
  · exact fun _ _ => ⟨Evolution.refl _, hnever⟩
  · exact fun p b h => ⟨upholds_again h, hs₀.memo h rfl⟩
  · exact fun _ g hk _ => ⟨.same rfl fun _ => hk, hnever⟩
  · intro h g hi
    obtain ⟨hk, ha⟩ := hc (begun (asked s task) task g) rfl (hs₀.insert fun t ht => by cases ht)
      (by rw [Dict.get?_insert, if_pos rfl])
    exact ⟨hs₀.upholds_done h hi hk ha, ha⟩

/-- An operator that is applied to each member answers with a union that may be used. -/
theorem leads_spread (hs : Ready r s) {subject : TypeId} (ht : r.Fit s.2 subject)
    {f : TypeId → EvalM TypeId}
    (hf : ∀ s', Upholds r s s' → ∀ x, r.Fit s'.2 x →
      Leads (Upholds r) (f x) s' fun a s'' => r.Fit s''.2 a) :
    Leads (Upholds r) (Store.distribute subject f) s fun a s' => r.Fit s'.2 a := by
  apply Store.leads_distribute Prod.snd (A := fun _ a s' => r.Fit s'.2 a) rfl
  · exact fun _ a => stable_fit hs a
  · intro x hx s' h'
    exact hf s' h' x (fit_later hs h' (BuildRules.mem_unionMembers hs.good ht hx))
  · exact fun _ => r.intrinsic hs.good rfl
  · exact fun _ _ _ _ _ h => h
  · intro ys s' h' _ hys
    apply leads_stored (BuildRules.gives_union (h'.ready hs).good _)
    intro y hy
    obtain ⟨_, _, h⟩ := mem_right_of_forall₂ hys hy
    exact h

section Conditional

variable (hopen : r.Open)

include hopen

theorem leads_conditionalMember (hs : Ready r s) (id : ConditionalId) {subject : TypeId}
    (ht : r.Fit s.2 subject) :
    Leads (Upholds r) (conditionalMember id subject) s fun a s' => r.Fit s'.2 a := by
  unfold conditionalMember
  apply leads_getStore
  apply leads_memo hs
  intro s₁ he hs₁ _
  have hrun := (runs_branch hs₁.good (he ▸ ht : r.Fit s₁.2 subject) s₁.1.limits
    (parts_conditional hopen hs₁.good id)).leads
  unfold Leads
  rw [← he, run_chooseBranch]
  exact ⟨.lift hrun.1, hrun.2⟩

theorem leads_conditional (hs : Ready r s) (id : ConditionalId) {subject : TypeId}
    (ht : r.Fit s.2 subject) :
    Leads (Upholds r) (applyConditional id subject) s fun a s' => r.Fit s'.2 a := by
  unfold applyConditional
  apply leads_getStore
  split
  · exact leads_spread hs ht fun s' h' x hx => leads_conditionalMember hopen (h'.ready hs) id hx
  · exact leads_conditionalMember hopen hs id ht

end Conditional

section Structure

variable {W : State → State → Prop} [Evolution W] {R : TypeId → TypeId → State → Prop}
variable (store : ∀ {s s'}, W s s' → r.Evolves s.2 s'.2)
variable (lift : ∀ {s : State} {st' : Store}, r.Evolves s.2 st' → W s (s.1, st'))
variable (stable : ∀ x y, StableFrom W s (R x y))
variable (fit : ∀ {x y s}, R x y s → r.Fit s.2 y)
variable {mapping : Mapping} {member : TypeId → EvalM TypeId}

include store lift stable fit

/-- What is put together out of types that may be used may be used. -/
theorem leads_mapBuilt (hg : r.Good s.2) {n : TypeId}
    (hmap : ∀ s', W s s' → ∀ c ∈ s.2.mentions n, Leads W (mapValue mapping member c) s' (R c)) :
    Leads W (mapStructure mapping member n) s fun a s' =>
      (∃ f, s.2.form? n = some f ∧ ∃ y, Mapped mapping (R · · s') f y ∧
        (s'.2.Indexed → Made y a s'.2) ∧ r.Fit s'.2 a) ∨
        Unmapped mapping (s.2.form? n) ∧ a = .never ∧ s' = s := by
  apply leads_mapStructure stable hmap
  intro f y s' hf h' hy
  obtain ⟨hev, hfit⟩ := BuildRules.gives (r.good (store h') hg) y
    (fun c hc => by
      obtain ⟨_, hx⟩ := hy.mentions hc
      exact fit hx)
    fun hd => hy.admissible ((r.tidy hd hg).regular hf).admissible
  exact leads_lift (lift hev)
    ⟨fun hi => Form.made_build hy.isExact ((r.grown hev).indexed.mp hi), hfit⟩

end Structure

section Mapping

variable (hopen : r.Open) {member : TypeId → EvalM TypeId}
variable (hmember : ∀ s, Ready r s → ∀ x, r.Fit s.2 x →
  Leads (Upholds r) (member x) s fun a s' => r.Fit s'.2 a)

include hopen hmember

theorem leads_mapValue (hs : Ready r s) (mapping : Mapping) {value : TypeId}
    (hv : r.Fit s.2 value) :
    Leads (Upholds r) (mapValue mapping member value) s fun a s' => r.Fit s'.2 a := by
  unfold mapValue
  split
  · exact Leads.pure hv
  · exact leads_conditional hopen hs _ hv
  · apply leads_spread hs hv
    intro s' h' x hx
    rw [mapInner_eq]
    apply leads_getStore
    split
    · exact hmember s' (h'.ready hs) x hx
    · exact Leads.pure hx

/-- What a mapping makes of a type may be used, and it is a container if anything was made. -/
theorem leads_mapContainer (hs : Ready r s) (mapping : Mapping) {n : TypeId}
    (hn : r.Fit s.2 n) :
    Leads (Upholds r) (mapStructure mapping member n) s fun a s' =>
      r.Fit s'.2 a ∧ (s' = s ∨ (s'.2.Indexed → s'.2.Container a)) := by
  have hvalues (s' : State) (h' : Upholds r s s') (c : TypeId) (hc : c ∈ s.2.mentions n) :
      Leads (Upholds r) (mapValue mapping member c) s' fun a s'' => r.Fit s''.2 a :=
    leads_mapValue hopen hmember (h'.ready hs) mapping
      (fit_later hs h' (r.child hs.good hn hc))
  apply (leads_mapBuilt (fun h => h.store) .lift (fun _ y => stable_fit hs y) (fun h => h) hs.good
    hvalues).mono
  rintro a s' _ (⟨f, _, y, hy, hmade, hfit⟩ | ⟨_, rfl, rfl⟩)
  · exact ⟨hfit, .inr fun hi => Store.container_of_form (hmade hi).form hy.container⟩
  · exact ⟨r.intrinsic hs.good rfl, .inl rfl⟩

omit hmember in
/-- Opening a fixed point puts an empty placeholder where the task has none. -/
theorem leads_opened (hs : Ready r s) {task : Task}
    (hm : s.1.memo.get? task = some (.running none false)) :
    Leads (Upholds r) (openFixedPoint task) s fun _ s' =>
      s'.1.memo.get? task = some (.running (some s.2.size) false) ∧
        s'.2.cells[s.2.size]? = some (.reserved none) := by
  obtain ⟨hreserve, hfit⟩ := r.reserve hopen hs.good
  have hcell := (Discipline.leads_reserve .free s.2).2.2
  have hlift : Upholds r s (s.1, (Action.run Store.reserve s.2).2) := .lift hreserve
  refine ⟨⟨hreserve, fun _ => .refl _, fun {other q b} hq => ?_, fun hs => ?_⟩, ?_, hcell⟩
  · have hne : other ≠ task := by
      rintro rfl
      simp [hm] at hq
    refine ⟨b, ?_⟩
    show (s.1.memo.insert task _).get? other = _
    rw [Dict.get?_insert, if_neg hne]
    exact hq
  · apply (hlift.ready hs).insert
    intro t ht
    cases ht
    exact hfit
  · show (s.1.memo.insert task _).get? task = _
    rw [Dict.get?_insert, if_pos rfl]

omit hmember in
/-- An empty placeholder that is younger than `s` may be given the body of any type, or of any
container where placeholders stand for nothing else. -/
theorem Upholds.filled {s' : State} (h : Upholds r s s') (hs' : Ready r s') {p a : TypeId}
    (hp : s.2.size ≤ p) (hcell : s'.2.cells[p]? = some (.reserved none)) {body : Node}
    (hb : s'.2.lookup a = some body) (hk : r.Strict → body.isContainer = true) :
    Upholds r s (s'.1, s'.2.filled p body) := by
  have hev := r.fill h.store hs'.good hp hcell fun hd => ⟨body, hb, hk hd⟩
  rw [hb, Option.getD_some] at hev
  exact ⟨hev, h.returns, h.running, fun hs => ⟨r.good hev hs.good, fun hm ht =>
    r.filled hopen (hs'.memo hm ht)⟩⟩

omit hopen hmember in
theorem spares_upholds (r : WalkRules) : Spares (Upholds r) where
  cell h _ hp := (r.grown h.store).cell hp
  running h _ _ _ hm := h.running hm

/-- Mapping through a fixed point. -/
theorem leads_fixedPoint (hs : Ready r s) {task : Task}
    (hm : s.1.memo.get? task = some (.running none false)) (mapping : Mapping) {n : TypeId}
    (hn : r.Fit s.2 n) :
    Leads (Upholds r)
      (openFixedPoint task >>= fun _ => mapStructure mapping member n >>= closeFixedPoint task) s
      fun a s' => r.Fit s'.2 a := by
  obtain ⟨h₁, hm₁, hcell⟩ := leads_opened hopen hs hm
  apply leads_throughFixedPoint (spares_upholds r) ⟨h₁, hm₁, hcell⟩
    (leads_mapContainer hopen hmember (h₁.ready hs) mapping (fit_later hs h₁ hn))
  · exact fun a s' _ h => h.1
  · intro a s' body h' h hr hcell hb
    have hs' := h'.ready hs
    have hcontainer (hd : r.Strict) : body.isContainer = true := by
      obtain ⟨node, hnode, hk⟩ := built_of_handedOut hm₁ h.2 hr (r.indexed hd hs'.good)
      cases hb.symm.trans hnode
      exact hk
    exact ⟨h'.filled hopen hs' (Nat.le_refl _) hcell hb hcontainer,
      r.filled hopen (hs'.memo hr rfl)⟩

theorem leads_mapMember (hs : Ready r s) (id : MappingId) {n : TypeId} (hn : r.Fit s.2 n) :
    Leads (Upholds r) (mapMember id member n) s fun a s' => r.Fit s'.2 a := by
  apply leads_memo hs
  intro s₁ he hs₁ hm
  have hn₁ : r.Fit s₁.2 n := he ▸ hn
  apply leads_getStore
  dsimp only
  split
  · exact leads_fixedPoint hopen hmember hs₁ hm _ hn₁
  · exact (leads_mapContainer hopen hmember hs₁ _ hn₁).mono fun _ _ _ h => h.1

omit hmember in
/-- However deep the walk may still go. -/
theorem leads_descend (hs : Ready r s) (id : MappingId) (room : Nat) {n : TypeId}
    (hn : r.Fit s.2 n) :
    Leads (Upholds r) (descend (mapMember id) (fun _ => return .never) room n) s fun a s' =>
      r.Fit s'.2 a := by
  refine descend_induction (motive := fun f => ∀ s, Ready r s → ∀ x, r.Fit s.2 x →
    Leads (Upholds r) (f x) s fun a s' => r.Fit s'.2 a) ?_ ?_ room s hs n hn
  · exact fun s hs x _ => Leads.pure (r.intrinsic hs.good rfl)
  · exact fun f hf s hs x hx => leads_mapMember hopen hf hs id hx

omit hmember in
theorem leads_mapping (hs : Ready r s) (id : MappingId) {subject : TypeId}
    (ht : r.Fit s.2 subject) :
    Leads (Upholds r) (applyMapping id subject) s fun a s' => r.Fit s'.2 a := by
  unfold applyMapping
  apply leads_get
  exact leads_spread hs ht fun s' h' x hx => leads_descend hopen (h'.ready hs) id _ hx

end Mapping

/-- Conditionals and mappings keep to the rules, whatever they are applied to. -/
theorem leads_operator (hopen : r.Open) (hs : Ready r s) (operator : Operator)
    {subject : TypeId} (ht : r.Fit s.2 subject) :
    Leads (Upholds r) (applyOperator operator subject) s fun a s' => r.Fit s'.2 a := by
  cases operator with
  | conditional id => exact leads_conditional hopen hs id ht
  | mapping id => exact leads_mapping hopen hs id ht

end Evaluator

end TypeCalculus
