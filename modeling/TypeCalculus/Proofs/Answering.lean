import TypeCalculus.Proofs.Remembering

namespace TypeCalculus

open Discipline (Fit Good)

theorem Store.Solid.fit {st : Store} {t : TypeId} (h : st.Solid t) : Fit .solid st t :=
  ⟨fun _ => h.lt_size, fun _ => h⟩

theorem Store.Made.solid {st : Store} {f : Form} {t : TypeId} (h : Store.Made f t st)
    (hm : ∀ c ∈ f.mentions, st.Solid c) : st.Solid t := by
  obtain ⟨node, hn, rfl⟩ := Store.lookup_of_form h.form
  apply Store.solid_of_cell (Store.interned_iff.mpr ⟨hn, h.interned⟩)
  intro c hc
  exact hm c (Store.form_mentions st node ▸ hc)

namespace Evaluator

variable {s s' : State}

theorem Orderly.solid (hs : Orderly s) : Good .solid s.2 :=
  ⟨fun _ => hs.anchored, fun _ => hs.linked, fun h => by cases h⟩

theorem fit_given {st : Store} {t : TypeId} (h : t < st.size) : Fit .given st t :=
  ⟨fun _ => h, fun h => by cases h⟩

/-- A task that the store knows it knows for each member of the subject. -/
theorem Orderly.knows_member (hs : Orderly s) {operator : Operator} {v x : TypeId}
    (hk : s.2.Knows ⟨operator, v⟩) (hx : x ∈ s.2.unionMembers v) : s.2.Knows ⟨operator, x⟩ :=
  ⟨hk.operator,
    ((fit_given hk.subject).mem_unionMembers hs.ready.good hx).valid fun h => by cases h⟩

/-- Work that has come to its end leaves as much room as there was. -/
theorem Advances.room (h : Advances s s') {room : Nat}
    (hroom : s.1.guard.depth + room = s.1.limits.depth) :
    s'.1.guard.depth + room = s'.1.limits.depth := by
  rw [h.guard.depth, h.limits]
  exact hroom

/-- What clean values are mapped to, for good. -/
theorem lasting_value (id : MappingId) :
    Lasting (.mapping id) fun s => ValueAnswer s.2 (Recalls s.1) id := by
  intro s s' x b h hs ho hc hb
  exact (hb.carries h.carries hs.anchored hs.linked (h.answers hs ho) hc hc.subject).1

theorem lasting_inner (id : MappingId) :
    Lasting (.mapping id) fun s => InnerAnswer s.2 (Recalls s.1) id := by
  intro s s' x b h hs ho hc hb
  exact (hb.carries h.carries (h.answers hs ho) hc).1

/-- The answers for the members of a type are united. -/
theorem advances_gather (hs : Orderly s) {operator : Operator} {P : State → TypeId → TypeId → Prop}
    (hP : Lasting operator P) {v : TypeId} (hk : s.2.Knows ⟨operator, v⟩)
    {f : TypeId → EvalM TypeId} (hf : ∀ x ∈ s.2.unionMembers v, ∀ s', Advances s s' →
      Leads Advances (f x) s' (Right operator P x)) :
    Leads Advances (Store.distribute v f) s (Right operator (fun s => Gathers s.2 (P s)) v) := by
  apply Store.leads_distribute Prod.snd (A := Right operator P) rfl
  · exact fun x y => (Right.stable hP x y).from s
  · exact hf
  · intro hn
    refine ⟨hs, hk, hs.ready.good.intrinsic rfl, fun _ _ => ⟨.none hn, ?_⟩⟩
    exact hs.anchored.founded.solid .never
  · intro x y s' h' hone hy
    refine ⟨hy.orderly, h'.carries.knows hk, hy.fit, fun hc ho => ?_⟩
    have hsolid := ((h'.clean hs hk).mp hc).subject
    have hmembers : s'.2.unionMembers v = [x] :=
      (hsolid.unionMembers_widens hs.anchored h'.carries.toWidens).trans hone
    obtain ⟨hp, hy⟩ := hy.right ⟨hc.operator, hc.subject.members (by simp [hmembers])⟩ ho
    exact ⟨.one hmembers hp, hy⟩
  · intro ys s' h' hlen hys
    have hs' := h'.orderly hs
    have hruns := (Discipline.runs_mkUnion hs'.ready.good fun y hy => by
      obtain ⟨x, _, hr⟩ := mem_right_of_forall₂ hys hy
      exact hr.fit).leads
    have hadv : Advances s' (s'.1, ((Store.mkUnion ys).run s'.2).2) := .lift hruns.1
    have hknown := h'.carries.knows hk
    refine leads_lift hadv ⟨hadv.orderly hs', hadv.carries.knows hknown, hruns.2, fun hc ho => ?_⟩
    have hclean := (hadv.clean hs' hknown).mp hc
    have hsolid := ((h'.clean hs hk).mp hclean).subject
    have hmembers : s'.2.unionMembers v = s.2.unionMembers v :=
      hsolid.unionMembers_widens hs.anchored h'.carries.toWidens
    have hmembers' : ((Store.mkUnion ys).run s'.2).2.unionMembers v = s'.2.unionMembers v :=
      hclean.subject.unionMembers_widens hs'.anchored hadv.carries.toWidens
    have hright : ∀ x ∈ s'.2.unionMembers v, ∀ y, Right operator P x y s' → P s' x y ∧
        s'.2.Solid y :=
      fun x hx y hr => hr.right ⟨hclean.operator, hclean.subject.members hx⟩ ho
    rw [← hmembers] at hlen hys
    -- the union of solid types is there to be found again
    have hecho := Discipline.runs_mkUnion hs'.solid fun y hy => by
      obtain ⟨x, hx, hr⟩ := mem_right_of_forall₂ hys hy
      exact (hright x hx y hr).2.fit
    refine ⟨.many (hmembers' ▸ hlen) ?_ (hecho.echo _ (Discipline.Firm.again ⟨rfl, .refl _⟩)),
      hecho.leads.2.solid rfl⟩
    rw [hmembers']
    apply forall₂_of_mem hys
    intro x hx y hr
    exact hP hadv hs' ho ⟨hclean.operator, hclean.subject.members hx⟩ (hright x hx y hr).1

theorem advances_chooseBranch (hs : Orderly s) {id : ConditionalId} {x : TypeId}
    (hk : s.2.Knows ⟨.conditional id, x⟩) :
    Leads Advances (chooseBranch (s.2.conditional id) x) s
      (Right (.conditional id) (Settled (.conditional id)) x) := by
  have hparts := parts_conditional (r := Discipline.rules .given) (fun h => by cases h)
    hs.ready.good id
  have hlt : x < s.2.size := hk.subject
  obtain ⟨hev, hfit⟩ := (runs_branch hs.ready.good (fit_given hlt) s.1.limits hparts).leads
  rcases hrun : Action.run (branch s.1.limits (s.2.conditional id) x) s.2 with ⟨a, st'⟩
  have hchoose : Action.run (chooseBranch (s.2.conditional id) x) s = (a, s.1, st') := by
    have hrun : (branch s.1.limits (s.2.conditional id) x).run s.2 = (a, st') := hrun
    rw [run_chooseBranch, hrun]
  rw [hrun] at hev hfit
  have hadv : Advances s (s.1, st') := .lift hev
  unfold Leads
  rw [hchoose]
  refine ⟨hadv, hadv.orderly hs, hadv.carries.knows hk, hfit, fun hc ho => ?_⟩
  have hclean := (hadv.clean hs hk).mp hc
  have hid := hclean.operator
  have hruns := runs_branch (r := Discipline.rules .solid) hs.solid hclean.subject.fit s.1.limits
    ⟨hid.pattern.fit, hid.yes.fit, hid.no.fit⟩
  have hsolid := hruns.leads.2.solid rfl
  have hecho := hruns.echo st'
  rw [hrun] at hsolid hecho
  refine ⟨.chosen ?_, hsolid⟩
  show (branch s.1.limits (st'.conditional id) x).run st' = _
  rw [hadv.carries.conditional hk.operator]
  exact hecho ⟨rfl, .refl _⟩

/-- The answer for one member is right and is remembered. -/
theorem advances_conditionalMember (hs : Orderly s) {id : ConditionalId} {x : TypeId}
    (hk : s.2.Knows ⟨.conditional id, x⟩) (hahead : Ahead s ⟨.conditional id, x⟩) :
    Leads Advances (conditionalMember id x) s
      (Right (.conditional id) (Recalled (.conditional id)) x) := by
  unfold conditionalMember
  apply leads_getStore
  apply advances_memoized hs hk hahead
  intro g hg s₁ hs₁ _
  exact advances_chooseBranch hs₁ hk

theorem advances_conditional (hs : Orderly s) {id : ConditionalId} {v : TypeId}
    (hk : s.2.Knows ⟨.conditional id, v⟩)
    (hahead : ∀ x ∈ s.2.targets id v, Ahead s ⟨.conditional id, x⟩) :
    Leads Advances (applyConditional id v) s
      (Right (.conditional id) (fun s => ConditionalAnswer s.2 (Recalls s.1) id) v) := by
  unfold Store.targets at hahead
  unfold applyConditional
  apply leads_getStore
  split
  · rename_i hd
    rw [if_pos hd] at hahead
    apply (advances_gather hs (lasting_recalled _) hk ?_).mono
    · intro b s' h' hb
      apply hb.mono
      intro _ hg
      rw [ConditionalAnswer, h'.carries.conditional hk.operator, if_pos hd]
      exact hg
    · intro x hx s' h'
      have hknown := hs.knows_member hk hx
      exact advances_conditionalMember (h'.orderly hs) (h'.carries.knows hknown)
        ((hahead x hx).later hs hknown h')
  · rename_i hd
    rw [if_neg hd] at hahead
    apply (advances_conditionalMember hs hk (hahead v (List.mem_singleton.mpr rfl))).mono
    intro b s' h' hb
    apply hb.mono
    intro _ hm
    rw [ConditionalAnswer, h'.carries.conditional hk.operator, if_neg hd]
    exact hm

structure Within (s : State) (id : MappingId) (n v : TypeId) : Prop where
  knows : s.2.Knows ⟨.mapping id, n⟩
  innermost : Innermost s ⟨.mapping id, n⟩
  valid : v < s.2.size
  below : s.2.Clean ⟨.mapping id, n⟩ → s.2.Solid v ∧ v < n

section Within

variable {id : MappingId} {n v : TypeId} (hs : Orderly s) (h : Within s id n v)

include hs h

theorem Within.later (hadv : Advances s s') : Within s' id n v := by
  refine ⟨hadv.carries.knows h.knows, h.innermost.later hs h.knows hadv,
    Nat.lt_of_lt_of_le h.valid hadv.carries.size, fun hc => ?_⟩
  obtain ⟨hsolid, hlt⟩ := h.below ((hadv.clean hs h.knows).mp hc)
  exact ⟨hsolid.widens hs.anchored hadv.carries.toWidens, hlt⟩

omit hs in
theorem Within.knows_value : s.2.Knows ⟨.mapping id, v⟩ := ⟨h.knows.operator, h.valid⟩

omit hs in
/-- The tasks that mapping a value leads to come after all clean tasks that are under way. -/
theorem Within.ahead {task : Task} (ht : s.2.Clean ⟨.mapping id, n⟩ → s.2.Solid v →
    s.2.Clean task ∧ task.subject ≤ v) : Ahead s task := by
  apply h.innermost.ahead
  intro hc
  obtain ⟨hsolid, hlt⟩ := h.below hc
  obtain ⟨hclean, hle⟩ := ht hc hsolid
  exact ⟨hclean, Nat.lt_of_le_of_lt hle hlt⟩

end Within

def Serves (id : MappingId) (room : Nat) (member : TypeId → EvalM TypeId) : Prop :=
  ∀ s, Orderly s → s.1.guard.depth + room = s.1.limits.depth → ∀ x, s.2.Knows ⟨.mapping id, x⟩ →
    Ahead s ⟨.mapping id, x⟩ →
      Leads Advances (member x) s (Right (.mapping id) (Recalled (.mapping id)) x)

section Mapping

variable {id : MappingId} {room : Nat} {member : TypeId → EvalM TypeId}
variable (hmember : Serves id room member) (hs : Orderly s)
variable (hroom : s.1.guard.depth + room = s.1.limits.depth)

include hmember hs hroom

theorem advances_mapInner {n v : TypeId} (hw : Within s id n v) {x : TypeId}
    (hx : x ∈ s.2.unionMembers v) (hadv : Advances s s') :
    Leads Advances (mapInner member x) s'
      (Right (.mapping id) (fun s => InnerAnswer s.2 (Recalls s.1) id) x) := by
  have hk := hs.knows_member hw.knows_value hx
  have hs' := hadv.orderly hs
  have hk' := hadv.carries.knows hk
  rw [mapInner_eq]
  apply leads_getStore
  split
  · rename_i hc
    have hahead : Ahead s ⟨.mapping id, x⟩ := hw.ahead fun hclean hsolid =>
      ⟨⟨hclean.operator, hsolid.members hx⟩,
        Store.le_of_unionMembers hs.anchored hsolid.isReserved hx⟩
    apply (hmember s' hs' (hadv.room hroom) x hk' (hahead.later hs hk hadv)).mono
    intro b s'' h'' hb
    apply hb.mono
    intro hclean hm
    have hsolid := ((h''.clean hs' hk').mp hclean).subject
    rw [InnerAnswer, Store.isContainer_carries h''.carries hsolid]
    exact (if_pos hc).mpr hm
  · rename_i hc
    refine Leads.pure ⟨hs', hk', fit_given hk'.subject, fun hclean _ => ⟨?_, hclean.subject⟩⟩
    exact (if_neg hc).mpr rfl

theorem advances_mapValue {n v : TypeId} (hw : Within s id n v) :
    Leads Advances (mapValue (s.2.mapping id) member v) s
      (Right (.mapping id) (fun s => ValueAnswer s.2 (Recalls s.1) id) v) := by
  have hid := hw.knows.operator
  unfold mapValue
  split
  · rename_i he
    refine Leads.pure ⟨hs, hw.knows_value, fit_given hw.valid, fun hc _ => ⟨?_, hc.subject⟩⟩
    simp only [ValueAnswer, he]
  · rename_i c he
    have hahead : ∀ x ∈ s.2.targets c v, Ahead s ⟨.conditional c, x⟩ := by
      intro x hx
      apply hw.ahead
      intro hclean hsolid
      obtain ⟨hx, hle⟩ := Store.mem_targets hsolid hx hs.anchored
      exact ⟨⟨hclean.operator.2 c he, hx⟩, hle⟩
    apply (advances_conditional hs ⟨hs.linked.has hid he, hw.valid⟩ hahead).mono
    intro b s' h' hb
    have he' : (s'.2.mapping id).value = .conditional c := by rw [h'.carries.mapping hid, he]
    refine ⟨hb.orderly, h'.carries.knows hw.knows_value, hb.fit, fun hc ho => ?_⟩
    obtain ⟨hanswer, hsolid⟩ := hb.right ⟨hc.operator.2 c he', hc.subject⟩ ho
    simp only [ValueAnswer, he']
    exact ⟨hanswer, hsolid⟩
  · rename_i he
    apply (advances_gather hs (lasting_inner id) hw.knows_value fun x hx s' h' =>
      advances_mapInner hmember hs hroom hw hx h').mono
    intro b s' h' hb
    apply hb.mono
    intro _ hg
    simp only [ValueAnswer, h'.carries.mapping hid, he]
    exact hg

/-- What a mapping makes of a clean type is right, and if anything was made it is a container. -/
theorem advances_mapStructure {n : TypeId} (hk : s.2.Knows ⟨.mapping id, n⟩)
    (hin : Innermost s ⟨.mapping id, n⟩) :
    Leads Advances (mapStructure (s.2.mapping id) member n) s fun a s' =>
      Right (.mapping id) (Settled (.mapping id)) n a s' ∧ (s' = s ∨ s'.2.Container a) := by
  have hvalues (s' : State) (h' : Advances s s') (c : TypeId) (hc : c ∈ s.2.mentions n) :
      Leads Advances (mapValue (s.2.mapping id) member c) s'
        (Right (.mapping id) (fun s => ValueAnswer s.2 (Recalls s.1) id) c) := by
    have hw : Within s id n c := ⟨hk, hin, hs.anchored.inside hc, fun hclean =>
      ⟨hclean.subject.child hc, hs.anchored.below hclean.subject.isReserved hc⟩⟩
    rw [← h'.carries.mapping hk.operator]
    exact advances_mapValue hmember (h'.orderly hs) (h'.room hroom) (hw.later hs h')
  apply (leads_mapBuilt (r := Discipline.rules .given) (fun h => h.upholds.store) .lift
    (fun x y => (Right.stable (lasting_value id) x y).from s) Right.fit hs.ready.good hvalues).mono
  intro a s' h' h
  rcases h with ⟨f, hf, y, hy, hmade, hfit⟩ | ⟨hu, rfl, rfl⟩
  · have hmade := hmade (h'.orderly hs).anchored.indexed
    refine ⟨⟨h'.orderly hs, h'.carries.knows hk, hfit, fun hc ho => ?_⟩,
      .inr (Store.container_of_form hmade.form hy.container)⟩
    have hclean := (h'.clean hs hk).mp hc
    have hright : Mapped (s.2.mapping id)
        (fun v b => ValueAnswer s'.2 (Recalls s'.1) id v b ∧ s'.2.Solid b) f y := by
      apply hy.mono_values
      intro v hv b hb
      have hmem : v ∈ s.2.mentions n := by
        rw [Store.mentions_of_form hf]
        exact Mapping.values_mentions hv
      have hsolid := (hclean.subject.child hmem).widens hs.anchored h'.carries.toWidens
      exact hb.right ⟨hc.operator, hsolid⟩ ho
    refine ⟨.mapped (f := f) (y := y) ?_ ?_ hmade, ?_⟩
    · exact (hclean.subject.form_widens hs.anchored h'.carries.toWidens).trans hf
    · rw [h'.carries.mapping hk.operator]
      exact hright.mono fun _ _ h => h.1
    · apply hmade.solid
      intro c hc
      obtain ⟨_, _, hsolid⟩ := hright.mentions hc
      exact hsolid
  · refine ⟨⟨hs, hk, hs.ready.good.intrinsic rfl, fun _ _ => ⟨.unmapped hu, ?_⟩⟩, .inl rfl⟩
    exact hs.anchored.founded.solid .never

end Mapping

/-- Opening the fixed point of a task that has none. -/
theorem advances_opened (hs : Orderly s) {task : Task}
    (hm : s.1.memo.get? task = some (.running none false)) :
    Leads Advances (openFixedPoint task) s fun _ s' =>
      s'.1.memo.get? task = some (.running (some s.2.size) false) ∧
        s'.2.cells[s.2.size]? = some (.reserved none) := by
  obtain ⟨hopened, hpost⟩ :=
    leads_opened (r := Discipline.rules .given) (fun h => by cases h) hs.ready hm
  obtain ⟨hreserve, _, hcell⟩ := Discipline.leads_reserve .given s.2
  have hlift : Advances s (s.1, (Action.run Store.reserve s.2).2) := .lift hreserve
  have hr : Running s.1 task := ⟨_, _, hm⟩
  refine ⟨⟨hopened, .refl _, rfl, (recalls_noted hr).mpr, fun _ => ?_, fun _ _ hi _ => hi⟩, hpost⟩
  apply (hlift.orderly hs).noted hr (fun _ => rfl)
  intro t ht
  cases ht
  exact fit_given (List.getElem?_eq_some_iff.mp hcell).1

section FixedPoint

variable {id : MappingId} {room : Nat} {member : TypeId → EvalM TypeId} {n : TypeId}

theorem spares_advances : Spares Advances where
  cell h _ hp := h.upholds.store.grown.cell hp
  running h _ _ _ hm := h.upholds.running hm

/-- A placeholder that was handed out is filled in. Its task is not clean. -/
theorem Advances.filled (h : Advances s s') (hs : Orderly s) {operator : Operator} {x a : TypeId}
    (hk : s'.2.Knows ⟨operator, x⟩)
    (hm : s'.1.memo.get? ⟨operator, x⟩ = some (.running (some s.2.size) true))
    (hcell : s'.2.cells[s.2.size]? = some (.reserved none)) {body : Node}
    (hb : s'.2.lookup a = some body) (P : State → TypeId → TypeId → Prop) :
    Advances s (s'.1, s'.2.filled s.2.size body) ∧
      Right operator P x s.2.size (s'.1, s'.2.filled s.2.size body) := by
  have hs' := h.orderly hs
  have hn : ¬ s'.2.Clean ⟨operator, x⟩ := fun hc => by cases hs'.quiet hm hc
  have hcarries : s'.2.Carries (s'.2.filled s.2.size body) :=
    ⟨Store.widens_filled hcell, .refl _, .refl _⟩
  have hupholds := h.upholds.filled (fun h => by cases h) hs'.ready (Nat.le_refl _) hcell hb
    fun h => by cases h
  have hfilled := hs'.carries hcarries (hupholds.ready hs.ready)
  refine ⟨⟨hupholds, h.guard, h.limits, h.done, fun _ => hfilled, h.rested⟩, hfilled,
    hcarries.knows hk, fit_given ?_, fun hc _ => ?_⟩
  · exact Store.lt_size_filled hcell
  · exact absurd (hc.of_carries hcarries hs'.anchored hs'.linked hk) hn

theorem advances_fixedPoint (hmember : Serves id room member) (hs : Orderly s)
    (hroom : s.1.guard.depth + room = s.1.limits.depth) (hk : s.2.Knows ⟨.mapping id, n⟩)
    (hin : Innermost s ⟨.mapping id, n⟩)
    (hm : s.1.memo.get? ⟨.mapping id, n⟩ = some (.running none false)) :
    Leads Advances (openFixedPoint ⟨.mapping id, n⟩ >>= fun _ =>
        mapStructure (s.2.mapping id) member n >>= closeFixedPoint ⟨.mapping id, n⟩) s
      (Right (.mapping id) (Settled (.mapping id)) n) := by
  obtain ⟨h₁, hm₁, hcell⟩ := advances_opened hs hm
  have hwork := advances_mapStructure hmember (h₁.orderly hs) (h₁.room hroom) (h₁.carries.knows hk)
    (hin.later hs hk h₁)
  rw [h₁.carries.mapping hk.operator] at hwork
  apply leads_throughFixedPoint spares_advances ⟨h₁, hm₁, hcell⟩ hwork
  · exact fun a s' _ h => h.1
  · intro a s' body h' h hr hcell hb
    exact h'.filled hs h.1.knows hr hcell hb _

/-- With no room left, the guard refuses to go on. -/
theorem serves_mapMember (h : ∀ below, room = below + 1 → Serves id below member) :
    Serves id room (mapMember id member) := by
  intro s hs hroom x hk hahead
  apply advances_memoized hs hk hahead
  intro g hg s₁ hs₁ hin
  have hlimit : s.1.guard.depth < s.1.limits.depth := by
    rw [← hs.limits]
    exact hg.room
  obtain ⟨below, rfl⟩ : ∃ below, room = below + 1 := ⟨room - 1, by omega⟩
  have hroom₁ : s₁.1.guard.depth + below = s₁.1.limits.depth := by
    show g.depth + below = s.1.limits.depth
    rw [hg.depth]
    omega
  have hserves := h below rfl
  apply leads_getStore
  dsimp only
  split
  · apply advances_fixedPoint hserves hs₁ hroom₁ hk hin
    exact (Dict.get?_insert ..).trans (if_pos rfl)
  · exact (advances_mapStructure hserves hs₁ hroom₁ hk hin).mono fun _ _ _ h => h.1

/-- A mapping serves at every level. -/
theorem serves_descend (id : MappingId) (room : Nat) :
    Serves id room (descend (mapMember id) (fun _ => return .never) room) := by
  apply descend_levels (motive := Serves id)
  intro room member h
  exact serves_mapMember h

end FixedPoint

section Rest

variable (hs : Orderly s) (hrest : s.1.guard.visiting = [])

include hs hrest

/-- Between calls no task is under way, so any task may come. -/
theorem Orderly.ahead_of_rest (task : Task) : Ahead s task := by
  intro r hr
  rw [← hs.visiting, hrest] at hr
  cases hr

theorem advances_mapping {id : MappingId} {v : TypeId} (hk : s.2.Knows ⟨.mapping id, v⟩) :
    Leads Advances (applyMapping id v) s
      (Right (.mapping id) (fun s => Gathers s.2 fun x => Recalls s.1 ⟨.mapping id, x⟩) v) := by
  unfold applyMapping
  apply leads_get
  apply advances_gather hs (lasting_recalled _) hk
  intro x hx s' h'
  have hknown := hs.knows_member hk hx
  have hroom : s.1.guard.depth + s.1.limits.depth = s.1.limits.depth := by
    rw [hs.depth, hrest]
    simp
  exact serves_descend id _ s' (h'.orderly hs) (h'.room hroom) x (h'.carries.knows hknown)
    ((hs.ahead_of_rest hrest _).later hs hknown h')

/-- Whatever the evaluator knows already, the answer to a clean task is the one that the answers to
the tasks it leads to add up to. -/
theorem advances_operator {operator : Operator} {v : TypeId} (hk : s.2.Knows ⟨operator, v⟩) :
    Leads Advances (applyOperator operator v) s
      (Right operator (fun s => OperatorAnswer s.2 (Recalls s.1) operator) v) := by
  cases operator with
  | conditional id =>
    apply advances_conditional hs hk
    intro x _
    exact hs.ahead_of_rest hrest _
  | mapping id => exact advances_mapping hs hrest hk

/-- Whatever an evaluator is asked to do between calls. -/
theorem Works.advances (h : Works .given s s') : Advances s s' := by
  induction h with
  | refl => exact Evolution.refl s
  | @tail s₁ s₂ _ hw ih =>
    apply Evolution.trans ih
    have hs₁ := ih.orderly hs
    cases hw with
    | store h => exact .lift h
    | applied operator ho ht =>
      have hgiven : Discipline.given ≠ .free := fun h => by cases h
      exact (advances_operator hs₁ (ih.guard.visiting.trans hrest) ⟨ho hgiven, ht.valid hgiven⟩).1

end Rest

end Evaluator

end TypeCalculus
