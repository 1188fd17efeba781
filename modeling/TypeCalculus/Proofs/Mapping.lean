import TypeCalculus.Proofs.Discipline
import TypeCalculus.Proofs.MappedForms

namespace TypeCalculus.Evaluator

open Store (Kind Later Made)

def applyOperator : Operator → TypeId → EvalM TypeId
  | .conditional id => applyConditional id
  | .mapping id => applyMapping id

section Structure

variable {W : State → State → Prop} [Evolution W] {R : TypeId → TypeId → State → Prop}
variable (later : ∀ {s s'}, W s s' → Later s.2 s'.2)
variable (lift : ∀ {s : State} {st' : Store}, Later s.2 st' → W s (s.1, st'))
variable (stable : ∀ x y, Stable W (R x y))
variable (valid : ∀ {x y s}, R x y s → y < s.2.size)
variable {mapping : Mapping} {member : TypeId → EvalM TypeId} {s : State}

include later lift stable valid

/-- What is put together is found in the store. -/
theorem leads_mapMade (hw : s.2.WellFormed) {n : TypeId}
    (hmap : ∀ s', W s s' → ∀ c ∈ s.2.mentions n, Leads W (mapValue mapping member c) s' (R c)) :
    Leads W (mapStructure mapping member n) s fun a s' =>
      (∃ f, s.2.form? n = some f ∧ ∃ y, Mapped mapping (R · · s') f y ∧ Made y a s'.2) ∨
        Unmapped mapping (s.2.form? n) ∧ a = .never ∧ s' = s := by
  apply leads_mapStructure (fun x y => (stable x y).from s) hmap
  intro f y s' _ h' hy
  have hw' := (later h').sound hw
  have hbuild := Store.kind_valid.leads_build (f := y) hw'
    (fun _ _ _ _ _ hf => Store.lt_size_of_form hf) fun c hc => by
      obtain ⟨x, hx⟩ := hy.mentions hc
      exact valid hx
  exact leads_lift (lift hbuild.1) (Form.made_build hy.isExact hw'.indexed)

end Structure

section FixedPoint

variable {task : Task} {s : State} {p answer : TypeId}

theorem run_closeFixedPoint : Action.run (closeFixedPoint task answer) s =
    match s.1.memo.get? task, s.2.lookup answer with
    | some (.running (some p) true), some body =>
      let r := (Store.define p body).run s.2
      (match r.1 with | .ok () => p | .error _ => answer, s.1, r.2)
    | _, _ => (answer, s) := by
  have hread : Action.run (closeFixedPoint task answer) s = Action.run (
      match s.1.memo.get? task, s.2.lookup answer with
      | some (.running (some placeholder) true), some body => do
        match ← Store.define placeholder body with
        | .ok () => return placeholder
        | .error _ => return answer
      | _, _ => return answer : EvalM TypeId) s := rfl
  rw [hread]
  split
  · rename_i p body _ _
    show Action.run (liftM (Store.define p body) >>= _) s = _
    rw [Action.run_bind]
    show Action.run (match ((Store.define p body).run s.2).1 with
      | .ok () => pure p
      | .error _ => pure answer : EvalM TypeId) (s.1, ((Store.define p body).run s.2).2) = _
    rcases (Store.define p body).run s.2 with ⟨_ | _, st'⟩ <;> rfl
  · rfl

/-- A placeholder that was handed out is given the body of the answer and takes its place. -/
theorem run_closeFixedPoint_referenced {body : Node}
    (hm : s.1.memo.get? task = some (.running (some p) true))
    (hc : s.2.cells[p]? = some (.reserved none)) (hb : s.2.lookup answer = some body) :
    Action.run (closeFixedPoint task answer) s = (p, s.1, s.2.filled p body) := by
  rw [run_closeFixedPoint, hm, hb]
  dsimp only
  rw [Store.run_define_empty hc]

/-- A placeholder that nobody has seen is forgotten. -/
theorem run_closeFixedPoint_unreferenced
    (hm : s.1.memo.get? task = some (.running (some p) false)) :
    Action.run (closeFixedPoint task answer) s = (answer, s) := by
  rw [run_closeFixedPoint, hm]

/-- Whatever goes on, the fixed points that are open stay so. Their placeholders may be handed
out. -/
structure Spares (W : State → State → Prop) : Prop where
  cell {s s' : State} (h : W s s') {p : TypeId} (hp : p < s.2.size) : s'.2.cells[p]? = s.2.cells[p]?
  running {s s' : State} (h : W s s') {task : Task} {p : TypeId} {r : Bool}
    (hm : s.1.memo.get? task = some (.running (some p) r)) :
    ∃ r', s'.1.memo.get? task = some (.running (some p) r')

/-- Working through a fixed point. Its placeholder takes the place of the answer if it was handed
out on the way. -/
theorem leads_throughFixedPoint {W : State → State → Prop} [Evolution W] (spares : Spares W)
    {work : EvalM TypeId} {Q R : TypeId → State → Prop}
    (hopen : Leads W (openFixedPoint task) s fun _ s' =>
      s'.1.memo.get? task = some (.running (some s.2.size) false) ∧
        s'.2.cells[s.2.size]? = some (.reserved none))
    (hwork : Leads W work (Action.run (openFixedPoint task) s).2 Q)
    (hkeep : ∀ a s', W s s' → Q a s' → R a s')
    (hfill : ∀ a s' body, W s s' → Q a s' →
      s'.1.memo.get? task = some (.running (some s.2.size) true) →
      s'.2.cells[s.2.size]? = some (.reserved none) → s'.2.lookup a = some body →
      W s (s'.1, s'.2.filled s.2.size body) ∧ R s.2.size (s'.1, s'.2.filled s.2.size body)) :
    Leads W (openFixedPoint task >>= fun _ => work >>= closeFixedPoint task) s R := by
  obtain ⟨hopened, hm, hcell⟩ := hopen
  obtain ⟨hworked, hq⟩ := hwork
  have hw := Evolution.trans hopened hworked
  have hcell' := (spares.cell hworked (List.getElem?_eq_some_iff.mp hcell).1).trans hcell
  obtain ⟨r, hr⟩ := spares.running hworked hm
  rw [Leads, Action.run_bind, Action.run_bind]
  cases r with
  | false =>
    rw [run_closeFixedPoint_unreferenced hr]
    exact ⟨hw, hkeep _ _ hw hq⟩
  | true =>
    cases hb : Store.lookup _ _ with
    | none =>
      rw [run_closeFixedPoint, hr, hb]
      exact ⟨hw, hkeep _ _ hw hq⟩
    | some body =>
      rw [run_closeFixedPoint_referenced hr hcell' hb]
      exact hfill _ _ _ hw hq hr hcell' hb

/-- If nothing was built, nothing was asked either, and the placeholder was not handed out. -/
theorem built_of_handedOut {s' : State} {built : Prop}
    (hm : s.1.memo.get? task = some (.running (some p) false)) (h : s' = s ∨ built)
    (hr : s'.1.memo.get? task = some (.running (some p) true)) : built := by
  rcases h with rfl | h
  · rw [hm] at hr
    cases hr
  · exact h

end FixedPoint

section Valid

abbrev Valid : Operator → Store → TypeId → Prop := fun _ st t => t < st.size

theorem kind_Valid (operator : Operator) : Kind (Valid operator) := Store.kind_valid

def Safe (act : EvalM TypeId) (s : State) : Prop :=
  Leads (Keeps Valid) act s fun a s' => a < s'.2.size

variable {s : State}

theorem safe_applyConditional (hs : Held Valid s) (id : ConditionalId) {subject : TypeId}
    (ht : subject < s.2.size) : Safe (applyConditional id subject) s := by
  refine leads_applyConditional kind_Valid (fun _ _ _ h _ => h) hs ht
    fun s' h' branch hb t hcycle => ?_
  have hw := (h'.held hs).sound
  obtain ⟨_, hyes, hno⟩ := hw.conditional_lt_size id
  refine hw.lt_size_of_reaches ?_ hcycle.reaches
  rcases List.mem_pair.mp hb with rfl | rfl
  · exact hyes
  · exact hno

theorem safe_distribute (hs : Held Valid s) {subject : TypeId} (ht : subject < s.2.size)
    {f : TypeId → EvalM TypeId} (hf : ∀ s', Keeps Valid s s' → ∀ x < s'.2.size, Safe (f x) s') :
    Safe (Store.distribute subject f) s :=
  leads_distribute kind_Valid Store.kind_valid hs ht fun x hx s' h' =>
    hf s' h' x (Nat.lt_of_lt_of_le hx h'.later.grown.size)

variable {member : TypeId → EvalM TypeId}
variable (hmember : ∀ s, Held Valid s → ∀ x < s.2.size, Safe (member x) s)

include hmember

theorem safe_mapValue (hs : Held Valid s) (mapping : Mapping) {value : TypeId}
    (hv : value < s.2.size) : Safe (mapValue mapping member value) s := by
  unfold mapValue
  split
  · exact Leads.pure hv
  · exact safe_applyConditional hs _ hv
  · refine safe_distribute hs hv fun s' h' x hx => ?_
    unfold mapInner
    refine leads_getStore ?_
    split
    · exact hmember s' (h'.held hs) x hx
    · exact hmember s' (h'.held hs) x hx
    · exact hmember s' (h'.held hs) x hx
    · exact Leads.pure hx

theorem leads_mapStructureValid (hs : Held Valid s) (mapping : Mapping) (n : TypeId) :
    Leads (Keeps Valid) (mapStructure mapping member n) s fun a s' => a < s'.2.size ∧
      (s' = s ∨ ∃ body, s'.2.lookup a = some body ∧ body.isContainer = true) := by
  have hvalues (s' : State) (h' : Keeps Valid s s') (c : TypeId) (hc : c ∈ s.2.mentions n) :
      Leads (Keeps Valid) (mapValue mapping member c) s' fun a s'' => a < s''.2.size :=
    safe_mapValue hmember (h'.held hs) mapping
      (Nat.lt_of_lt_of_le ((hs.sound.sound n).inside hc) h'.later.grown.size)
  refine (leads_mapMade (R := fun _ a s' => a < s'.2.size) (fun h => h.later)
    (fun h => Keeps.store kind_Valid h)
    (fun _ _ _ _ h hx => Nat.lt_of_lt_of_le hx h.later.grown.size) (fun h => h) hs.sound
    hvalues).mono fun a s' h' h => ?_
  rcases h with ⟨f, _, y, hy, hmade⟩ | ⟨_, rfl, rfl⟩
  · obtain ⟨body, hb, rfl⟩ := Store.lookup_of_form hmade.form
    exact ⟨hmade.lt_size, .inr ⟨body, hb, (Store.form_isContainer _ body).symm.trans hy.container⟩⟩
  · exact ⟨Store.kind_valid.intrinsic .never hs.sound, .inl rfl⟩

omit hmember in
/-- Opening a fixed point puts an empty placeholder where the task has none. -/
theorem leads_openFixedPoint (hs : Held Valid s) {task : Task}
    (hm : s.1.memo.get? task = some (.running none false)) :
    Leads (Keeps Valid) (openFixedPoint task) s fun _ s' =>
      s'.1.memo.get? task = some (.running (some s.2.size) false) ∧
        s'.2.cells[s.2.size]? = some (.reserved none) := by
  obtain ⟨hlater, _, hcell⟩ := Store.leads_reserve hs.sound
  have hlt : s.2.size < (Action.run Store.reserve s.2).2.size :=
    (List.getElem?_eq_some_iff.mp hcell).1
  have hkeeps : Keeps Valid s (s.1, (Action.run Store.reserve s.2).2) :=
    Keeps.store kind_Valid hlater
  refine ⟨⟨hlater, fun {other q r} hq => ?_, fun hs => ?_⟩, ?_, hcell⟩
  · have hne : other ≠ task := by
      rintro rfl
      simp [hm] at hq
    refine ⟨r, ?_⟩
    show (s.1.memo.insert task _).get? other = _
    rw [Dict.get?_insert, if_neg hne]
    exact hq
  · exact (hkeeps.held hs).insert fun t ht => Option.some.inj ht ▸ hlt
  · show (s.1.memo.insert task _).get? task = _
    rw [Dict.get?_insert, if_pos rfl]

omit hmember in
/-- An empty placeholder that is younger than `s` may be given the body of any type. -/
theorem Keeps.filled {s' : State} (h : Keeps Valid s s') (hs' : Held Valid s') {p a : TypeId}
    (hp : s.2.size ≤ p) (hcell : s'.2.cells[p]? = some (.reserved none)) {body : Node}
    (hb : s'.2.lookup a = some body) (hk : body.isContainer = true) :
    Keeps Valid s (s'.1, s'.2.filled p body) := by
  have hsound := hs'.sound.copied hcell hk hb
  exact ⟨⟨h.later.grown.filled hcell hp, fun _ => hsound⟩, h.running,
    fun _ => ⟨hsound, fun hm ht => Store.filled_lt (hs'.memo hm ht)⟩⟩

omit hmember in
theorem spares_keeps : Spares (Keeps Valid) where
  cell h _ hp := h.later.grown.cell hp
  running h _ _ _ hm := h.running hm

theorem safe_deep (hs : Held Valid s) {task : Task}
    (hm : s.1.memo.get? task = some (.running none false)) (mapping : Mapping) (n : TypeId) :
    Safe (openFixedPoint task >>= fun _ => mapStructure mapping member n >>= closeFixedPoint task)
      s := by
  obtain ⟨h₁, hm₁, hcell⟩ := leads_openFixedPoint hs hm
  refine leads_throughFixedPoint spares_keeps ⟨h₁, hm₁, hcell⟩
    (leads_mapStructureValid hmember (h₁.held hs) mapping n) (fun a s' _ h => h.1)
    fun a s' body h' h hr hcell hb => ?_
  obtain ⟨node, hnode, hk⟩ := built_of_handedOut hm₁ h.2 hr
  cases hb.symm.trans hnode
  exact ⟨h'.filled (h'.held hs) (Nat.le_refl _) hcell hb hk, Store.lt_size_filled hcell⟩

theorem safe_mapMember (hs : Held Valid s) (id : MappingId) (n : TypeId) :
    Safe (mapMember id member n) s := by
  refine leads_remembered kind_Valid hs fun s₁ _ hs₁ hm => leads_getStore ?_
  dsimp only
  split
  · exact safe_deep hmember hs₁ hm _ n
  · exact (leads_mapStructureValid hmember hs₁ _ n).mono fun _ _ _ h => h.1

omit hmember in
theorem safe_descend (id : MappingId) (room : Nat) {s : State} (hs : Held Valid s) {x : TypeId}
    (hx : x < s.2.size) : Safe (descend (mapMember id) (fun _ => return .never) room x) s := by
  refine descend_induction (motive := fun f => ∀ s, Held Valid s → ∀ x < s.2.size, Safe (f x) s)
    (fun s hs x _ => ?_) (fun f hf s hs x _ => ?_) room s hs x hx
  · exact Leads.pure (Store.kind_valid.intrinsic .never hs.sound)
  · exact safe_mapMember hf hs id x

omit hmember in
theorem safe_applyMapping (hs : Held Valid s) (id : MappingId) {subject : TypeId}
    (ht : subject < s.2.size) : Safe (applyMapping id subject) s := by
  unfold applyMapping
  exact leads_get (safe_distribute hs ht fun s' h' x hx => safe_descend id _ (h'.held hs) hx)

end Valid

end TypeCalculus.Evaluator
