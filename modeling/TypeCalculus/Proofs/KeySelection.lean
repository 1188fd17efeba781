import TypeCalculus.Proofs.KeyNames
import TypeCalculus.Proofs.OpenSignatures
import TypeCalculus.Proofs.Partition
import TypeCalculus.Proofs.MemberMapping

namespace TypeCalculus

namespace Store

def Shaped (shape : Shape) (t : TypeId) (st : Store) : Prop :=
  ∃ id, st.lookup t = some (.object id) ∧ st.shapes.get? id = some shape

section Shaped

variable {shape : Shape} {t : TypeId} {st st' : Store}

theorem Shaped.form (h : Shaped shape t st) : st.form? t = some (.object shape) := by
  obtain ⟨id, hl, hget⟩ := h
  rw [form_of_lookup hl, Store.form, Store.shape, hget]
  rfl

theorem Shaped.later (h : Shaped shape t st) (hs : st.Extends st') : Shaped shape t st' := by
  obtain ⟨id, hl, hget⟩ := h
  have hlt : t < st.size := lt_size_of_lookup (Option.isSome_of_eq_some hl)
  exact ⟨id, (hs.lookup hlt).trans hl, hs.shapes.get? hget⟩

theorem Neat.shaped (hn : st.Neat) (h : st.form? t = some (.object shape)) : Shaped shape t st := by
  obtain ⟨node, hl, hf⟩ := lookup_of_form h
  have hp := hn.placed hl
  cases node <;> simp only [Store.form, reduceCtorEq, Form.object.injEq] at hf
  rename_i id
  obtain ⟨held, hget⟩ := Option.isSome_iff_exists.mp hp
  rw [Store.shape, hget] at hf
  exact ⟨id, hl, hf ▸ hget⟩

theorem Shaped.isContainer (h : Shaped shape t st) : st.isContainer t = true := by
  obtain ⟨id, hl, _⟩ := h
  rw [Store.isContainer, hl]
  rfl

end Shaped

theorem Stored.made {f : Form} {t : TypeId} {st : Store} (h : Stored f t st) : Made f t st := by
  obtain ⟨node, hcell, _, _⟩ := id h
  exact ⟨h.form, (interned_iff.mp hcell).2⟩

theorem Neat.stored {f : Form} {t : TypeId} {st : Store} (hn : st.Neat) (h : Made f t st) :
    Stored f t st := by
  obtain ⟨node, hl, hf⟩ := lookup_of_form h.form
  exact ⟨node, interned_iff.mpr ⟨hl, h.interned⟩, hn.placed hl, hf⟩

/-- All fields of an object were picked, or none of them. -/
theorem Stored.whole_or_empty {shape : Shape} {subject a : TypeId} {st : Store} (hs : st.Shared)
    (hsubject : Stored (.object shape) subject st)
    (ha : Stored (.object { fields := shape.fields.filter fun _ => shape.index.isNone }) a st) :
    (shape.index = none → a = subject) ∧ (shape.index ≠ none → Made (.object {}) a st) := by
  obtain ⟨fields, index⟩ := shape
  cases index with
  | none =>
    simp only [Option.isNone_none, List.filter_true] at ha
    exact ⟨fun _ => ha.unique hs hsubject, fun h => absurd rfl h⟩
  | some index =>
    simp only [Option.isNone_some, List.filter_false] at ha
    exact ⟨(fun h => by cases h), fun _ => ha.made⟩

/-- Of the intrinsic types, a literal can be assigned to its primitive and to those that accept
everything. -/
theorem isSome_matchPattern_intrinsic {st : Store} (hf : st.Founded) {t : TypeId} {value : Literal}
    (ht : st.lookup t = some (.literal value)) (kind : Intrinsic) (htop : kind.id.isTop = false) :
    ((matchPattern t kind.id).run st).1.isSome = decide (value.primitive = kind.id) := by
  have hne := hf.ne_of_literal ht
  have hpositive : Limits.matching.Positive := ⟨by decide, by decide⟩
  have hintrinsic : Matcher.matchIntrinsic st t kind = decide (value.primitive = kind.id) := by
    cases kind with
    | object =>
      have hobject : value.primitive ≠ Intrinsic.object.id := by
        cases value <;> rw [Literal.primitive] <;> decide
      have hlike : st.isObjectLike t = false := by
        simp [isObjectLike, ht, show t ≠ .object from hne .object]
      exact hlike.trans (decide_eq_false hobject).symm
    | void =>
      have hvoid : value.primitive ≠ Intrinsic.void.id := by
        cases value <;> rw [Literal.primitive] <;> decide
      exact (decide_eq_false (hne .undefined)).trans (decide_eq_false hvoid).symm
    | _ => simp only [Matcher.matchIntrinsic, ht]
  obtain ⟨b, _, _, hrun, hb⟩ := Matcher.run_matchPattern_visit hpositive (F := Matcher.Goes)
    (Q := fun b _ _ => b = decide (value.primitive = kind.id)) (hne kind) (hf.lookup kind)
    (fun _ h => by cases h) htop (hne .never) (hne .any) fun g stop room _ => by
      apply leads_getStore
      simp only [ht, Matcher.matchNodes]
      exact Leads.pure hintrinsic
  rw [hrun, ← hb]
  cases b <;> rfl

/-- No name is among the keys of `never`. -/
theorem admitsName_never {st : Store} (hf : st.Founded) (hi : st.Indexed) (name : String) :
    ((admitsName .never name).run st).1 = false :=
  isSome_matchPattern_intrinsic ((Form.evolves_build (.key name) st).grown.founded hf)
    (lookup_of_key (stored_mkLiteral hi (.string name)).form) .never rfl

/-- The fields that are left when the names that match are left out, whenever each of them may be
matched. -/
theorem shape_by_names {st : Store} (hr : st.Reached) {keys : TypeId} (hk : st.Intact keys)
    {shape : Shape} (hi : shape.index = none) {names : List String}
    (h : ∀ field ∈ shape.fields, ∃ asked, Discipline.Evolves .free st asked ∧
      (field.name ∈ names ↔ ((admitsName keys field.name).run asked).1 = true)) :
    ({ fields := shape.fields.filter fun field =>
        shape.index.isNone && !((admitsName keys field.name).run st).1 } : Shape) =
      { fields := shape.fields.filter (·.name ∉ names), index := shape.index } := by
  rw [hi, Shape.mk.injEq]
  refine ⟨List.filter_congr fun field hfield => ?_, rfl⟩
  obtain ⟨asked, hasked, hiff⟩ := h field hfield
  rw [admitsName_steady hr hk (Evolution.refl st) hasked field.name]
  simp [hiff]

end Store

namespace Evaluator

open Store (Stored Shaped)

variable {s s' : State}

structure Reliable (s : State) : Prop where
  reached : s.2.Reached
  resting : Resting s.1
  limits : s.1.limits = .evaluation
  memo {id : MappingId} {x a : TypeId} : Recalls s.1 ⟨.mapping id, x⟩ a → ∃ m shape,
    s.2.mappings.get? id = some m ∧ Shaped shape x s.2 ∧ Stored (.object (m.shape shape)) a s.2

theorem reliable_start {st : Store} (h : st.Reached) : Reliable (start, st) :=
  ⟨h, .blank rfl rfl rfl fun _ => trivial, rfl, fun h => by cases h⟩

theorem Reliable.positive (h : Reliable s) : s.1.limits.Positive :=
  h.limits ▸ Limits.positive_evaluation

/-- What is remembered of mappings stays right, and what is added is right. -/
theorem Reliable.later (h : Reliable s) (ht : Turns s s')
    (hmemo : ∀ id x a, Recalls s'.1 ⟨.mapping id, x⟩ a → Recalls s.1 ⟨.mapping id, x⟩ a ∨ ∃ m shape,
      s'.2.mappings.get? id = some m ∧ Shaped shape x s'.2 ∧
      Stored (.object (m.shape shape)) a s'.2) :
    Reliable s' where
  reached := ht.store.reached h.reached
  resting := h.resting.later ht
  limits := ht.limits.trans h.limits
  memo {id x a} hr := by
    rcases hmemo id x a hr with hr | hr
    · obtain ⟨m, shape, hm, hx, ha⟩ := h.memo hr
      have hgrown := ht.store.grown
      exact ⟨m, shape, hgrown.mappings.get? hm, hx.later hgrown, ha.later hgrown⟩
    · exact hr

theorem Reliable.lift (h : Reliable s) {st' : Store} (hev : Discipline.Evolves .free s.2 st') :
    Reliable (s.1, st') :=
  h.later (.lift hev) fun _ _ _ hr => .inl hr

def Unfiltered (e : Evaluator) : Prop := ∀ id x a, ¬ Recalls e ⟨.conditional id, x⟩ a

/-- Applied to an object, a mapping is applied to no other member. -/
theorem run_mapWith (h : Reliable s) (m : Mapping) {x : TypeId} {shape : Shape}
    (hx : Shaped shape x s.2) :
    ∃ id member st₁, st₁.mappings.get? id = some m ∧ Discipline.Evolves .free s.2 st₁ ∧
      Turns (s.1, st₁) (Action.run (mapMember id member x) (s.1, st₁)).2 ∧
      Action.run (mapWith m x) s = Action.run (mapMember id member x) (s.1, st₁) := by
  have happlies : Applies s.2 m (mapWith m) := .anew
  obtain ⟨id, st₁, hm, _, hev, hrun⟩ := happlies.run h.reached.shared.indexed x
  obtain ⟨member, hmember⟩ := mapOne_eq id s.1.limits.depth x
  have h₁ := h.lift hev
  have hmembers : st₁.unionMembers x = [x] :=
    h₁.reached.founded.unionMembers_container (hx.later hev.grown).isContainer
  have hread : Action.run (liftM (get : StoreM Store) : EvalM Store) (s.1, st₁) = (st₁, s.1, st₁) :=
    rfl
  have hturns : Turns (s.1, st₁) (Action.run (mapOne id s.1.limits.depth x) (s.1, st₁)).2 :=
    (turns_descend (s := (s.1, st₁)) h₁.resting.toBalanced h₁.resting.opened id
      s.1.limits.depth x).1
  refine ⟨id, member, st₁, hm, hev, hmember ▸ hturns, ?_⟩
  rw [hrun, ← hmember]
  unfold Store.distribute
  rw [Action.run_bind, hread]
  simp only [hmembers]

/-- What a mapping that keeps the values answers to an object. -/
theorem leads_mapWith (h : Reliable s) {m : Mapping} (hk : m.value = .keep) {x : TypeId}
    {shape : Shape} (hx : Shaped shape x s.2) :
    Leads Turns (mapWith m x) s fun a s' =>
      Reliable s' ∧ (Unfiltered s.1 → Unfiltered s'.1) ∧
      Stored (.object (m.shape shape)) a s'.2 := by
  obtain ⟨id, member, st₁, hm, hev, hturns, hrun⟩ := run_mapWith h m hx
  have h₁ := h.lift hev
  have hx₁ := hx.later hev.grown
  unfold Leads
  rw [hrun]
  rcases run_mapMember h₁.resting h₁.positive hm hk member x with
    ⟨a, hrecalls, hrun⟩ | ⟨e, hrun, hmade, hothers⟩
  · rw [hrun] at hturns ⊢
    obtain ⟨m', shape', hm', hx', ha⟩ := h₁.memo hrecalls
    cases hm.symm.trans hm'
    cases hx₁.form.symm.trans hx'.form
    exact ⟨Evolution.trans (.lift hev) hturns, h₁.later hturns fun _ _ _ hr => .inl hr,
      fun hu => hu, ha⟩
  · have hmake : remake (st₁.image? m x) = Store.mkObject (m.shape shape) := by
      rw [Store.image?_of_form hx₁.form]
      rfl
    have ha := Store.stored_mkObject h₁.reached.shared.indexed (m.shape shape)
    rw [hrun, hmake] at hturns ⊢
    rw [hmake] at hmade
    refine ⟨Evolution.trans (.lift hev) hturns, h₁.later hturns fun id' y b hr => ?_,
      fun hu => ?_, ha⟩
    · by_cases htask : (⟨.mapping id', y⟩ : Task) = ⟨.mapping id, x⟩
      · cases htask
        cases hr.symm.trans hmade
        have hgrown := hturns.store.grown
        exact .inr ⟨m, shape, hgrown.mappings.get? hm, hx₁.later hgrown, ha⟩
      · exact .inl ((hothers _ htask).symm.trans hr)
    · intro id' y b hr
      exact hu id' y b ((hothers _ fun h => by cases h).symm.trans hr)

section Judges

variable (id : ConditionalId) (verdict : TypeId → TypeId)

def Judged (e : Evaluator) : Prop := ∀ x a, Recalls e ⟨.conditional id, x⟩ a → a = verdict x

structure Judges (s s' : State) : Prop extends Turns s s' where
  others {task : Task} : task.operator ≠ .conditional id → s'.1.memo.get? task = s.1.memo.get? task
  right : Judged id verdict s.1 → Judged id verdict s'.1

instance : Evolution (Judges id verdict) where
  refl s := ⟨Evolution.refl s, fun _ => rfl, fun h => h⟩
  trans h h' := ⟨Evolution.trans h.toTurns h'.toTurns, fun ht => (h'.others ht).trans (h.others ht),
    fun hr => h'.right (h.right hr)⟩

variable {id verdict}

/-- A key is left out if it matches the filter, and kept otherwise. -/
theorem judges_member (h : Resting s.1) (hl : s.1.limits.Positive) (hf : s.2.Founded)
    {keys self x : TypeId} (hc : s.2.conditional id = sieve false keys self)
    (hself : s.2.cells[self]? = some (.interned (.param subjectName))) (hany : x ≠ .any)
    (hx : verdict x =
      if ((matchPattern x keys s.1.limits).run s.2).1.isSome = false then x else .never)
    (hright : Judged id verdict s.1) :
    Leads (Judges id verdict) (conditionalMember id x) s fun a _ => a = verdict x := by
  have hturns := (turns_conditionalMember h.toBalanced h.opened.mappings id x).1
  unfold Leads
  rcases run_conditionalMember h hl id x with ⟨a, hrecalls, hrun⟩ | ⟨e, hrun, hrecalls, hothers⟩
  · rw [hrun] at hturns ⊢
    exact ⟨⟨hturns, fun _ => rfl, fun hr => hr⟩, hright x a hrecalls⟩
  · rw [hrun] at hturns ⊢
    have hchosen : ((branch s.1.limits (s.2.conditional id) x).run s.2).1 = verdict x := by
      rw [hc, run_branch_sieve hf hself s.1.limits false keys hany, hx]
    refine ⟨⟨hturns, fun htask => hothers _ fun he => htask (by rw [he]), fun hr y b hb => ?_⟩,
      hchosen⟩
    by_cases hy : y = x
    · subst hy
      cases hb.symm.trans hrecalls
      exact hchosen
    · have hne : (⟨.conditional id, y⟩ : Task) ≠ ⟨.conditional id, x⟩ := fun he =>
        hy (congrArg Task.subject he)
      exact hr y b ((hothers _ hne).symm.trans hb)

/-- The members of a type that stay apart are judged one after the other. -/
theorem judges_members (h : Reliable s) (hu : Unfiltered s.1) {own keys self : TypeId}
    (hget : s.2.conditionals.get? id = some (sieve false keys self))
    (hself : s.2.cells[self]? = some (.interned (.param subjectName))) {types : List TypeId}
    (hown : s.2.Comprises own types) (hasunder : Store.Asunder types s.2) {choice : TypeId → Bool}
    (hchoice : ∀ x ∈ types, ∀ later, Discipline.Evolves .free s.2 later →
      ((matchPattern x keys).run later).1.isSome = !choice x) :
    Leads (Judges id fun x => if choice x then x else .never)
      (applyConditional id own) s fun a s' =>
      ∀ later, s'.2.Extends later → later.Comprises a (types.filter choice) := by
  have hf := h.reached.founded
  have hcond {st' : Store} (hs : s.2.Extends st') : st'.conditional id = sieve false keys self := by
    rw [Store.conditional, hs.conditionals.get? hget]
    rfl
  have hanswers {ys : List TypeId}
      (hys : List.Forall₂ (fun x y => y = if choice x then x else .never)
      (s.2.unionMembers own) ys) :
      (∀ m, m ≠ .never → (m ∈ ys ↔ m ∈ types.filter choice)) ∧ Store.Asunder ys s.2 := by
    obtain ⟨hsame, hsub⟩ := hown.chosen hys
    exact ⟨hsame, hasunder.subset hsub hf⟩
  unfold applyConditional
  apply leads_getStore
  rw [if_pos (by rw [hcond (.refl s.2)]; rfl)]
  apply Store.leads_distribute Prod.snd (A := fun x y _ => y = if choice x then x else .never) rfl
  · exact fun _ _ _ _ _ _ hy => hy
  · intro x hx s₁ hs₁
    have hgrown := hs₁.store.grown
    have hmem := ((hown x).mp hx).1
    have hlimits : s₁.1.limits = .matching := hs₁.limits.trans h.limits
    apply judges_member (h.resting.later hs₁.toTurns) (hs₁.limits ▸ h.positive) (hgrown.founded hf)
      (hcond hgrown) ((hgrown.cell (List.getElem?_eq_some_iff.mp hself).1).trans hself)
      ((hasunder s.2 (.refl s.2)).plain hmem).1 ?_ (hs₁.right fun y a hr => absurd hr (hu id y a))
    rw [hlimits, hchoice x hmem s₁.2 hs₁.store]
    simp only [Bool.not_eq_false']
  · intro hnone later _
    have hnil : List.Forall₂ (fun x y => y = if choice x then x else .never)
        (s.2.unionMembers own) [] := by
      rw [hnone]
      exact .nil
    exact (Store.comprises_never later).congr (hanswers hnil).1
  · intro x y s₁ hs₁ hone hy later hs
    have hsingle : List.Forall₂ (fun x y => y = if choice x then x else .never)
        (s.2.unionMembers own) [y] := by
      rw [hone]
      exact .cons hy .nil
    obtain ⟨hsame, hy⟩ := hanswers hsingle
    exact (Store.comprises_single hy (hs₁.store.grown.trans hs)).congr hsame
  · intro ys s₁ hs₁ _ hys
    obtain ⟨hsame, hys⟩ := hanswers hys
    have hgrown := hs₁.store.grown
    have hunion : Judges id (fun x => if choice x then x else .never) s₁
        (s₁.1, ((Store.mkUnion ys).run s₁.2).2) :=
      ⟨.lift (Form.evolves_build (.union ys) s₁.2), fun _ => rfl, fun hr => hr⟩
    exact leads_lift hunion fun later hs =>
      (Store.comprises_mkUnion (hgrown.founded hf) (hgrown.indexed.mpr h.reached.shared.indexed)
        (hys.later hgrown) hs).congr hsame

end Judges

/-- The conditional and the parameter that excluding uses. -/
theorem run_exclude (h : s.2.Indexed) (own keys : TypeId) :
    ∃ (id : ConditionalId) (self : TypeId) (st₁ : Store),
    Discipline.Evolves .free s.2 st₁ ∧ st₁.conditionals.get? id = some (sieve false keys self) ∧
    st₁.cells[self]? = some (.interned (.param subjectName)) ∧
    Action.run (exclude own keys) s = Action.run (applyConditional id own) (s.1, st₁) := by
  have hparam := (Discipline.runs_mkParam (Discipline.good_free s.2) subjectName).leads.1
  have hcell :
      ((Store.mkParam subjectName).run s.2).2.cells[((Store.mkParam subjectName).run s.2).1]? =
      some (.interned (.param subjectName)) :=
    Discipline.cell_intern (fun _ h => by cases h) (hparam.grown.indexed.mpr h)
  have hcond : Leads (Discipline.Evolves .free)
      (Store.internConditional (sieve false keys ((Store.mkParam subjectName).run s.2).1))
      ((Store.mkParam subjectName).run s.2).2 _ :=
      Discipline.leads_internConditional fun h => absurd rfl h
  have hev := Evolution.trans hparam hcond.1
  refine ⟨_, _, _, hev, hcond.2 (hev.grown.indexed.mpr h), ?_, rfl⟩
  exact (hcond.1.grown.cell (List.getElem?_eq_some_iff.mp hcell).1).trans hcell

/-- Of keys that stay apart, those are left that do not match. -/
theorem leads_exclude (h : Reliable s) (hu : Unfiltered s.1) {own keys : TypeId}
    {types : List TypeId}
    (hown : ∀ later, s.2.Extends later → later.Comprises own types)
    (hasunder : Store.Asunder types s.2)
    (hsteady : ∀ x ∈ types, ∀ later, Discipline.Evolves .free s.2 later →
      ((matchPattern x keys).run later).1.isSome = ((matchPattern x keys).run s.2).1.isSome) :
    Leads Turns (exclude own keys) s fun a s' => Reliable s' ∧ ∀ later, s'.2.Extends later →
      later.Comprises a (types.filter fun x => !((matchPattern x keys).run s.2).1.isSome) := by
  obtain ⟨id, self, st₁, hev, hget, hself, hrun⟩ := run_exclude h.reached.shared.indexed own keys
  have h₁ := h.lift hev
  obtain ⟨hjudges, hkept⟩ :=
    judges_members h₁ hu hget hself (hown st₁ hev.grown) (hasunder.later hev.grown)
    fun x hx later hs => (hsteady x hx later (Evolution.trans hev hs)).trans (Bool.not_not _).symm
  unfold Leads
  rw [hrun]
  refine ⟨Evolution.trans (.lift hev) hjudges.toTurns,
    h₁.later hjudges.toTurns fun id' x a hr => ?_, hkept⟩
  exact .inl ((hjudges.others fun h => by cases h).symm.trans hr)

/-- A mapping that does nothing but filter the keys. -/
theorem shape_filter (keys : KeyFilter) (shape : Shape) : Mapping.shape { keys } shape =
    { fields := shape.fields.filter (keys.accepts ·.name)
      index := if keys.keepsIndex then shape.index else none } := by
  have hfield : Mapping.field { keys } = id := rfl
  have hindex : Mapping.index { keys } = id := rfl
  simp only [Mapping.shape, hfield, hindex, List.map_id, Option.map_id, id_eq]

def pickAll (subject : TypeId) : EvalM TypeId := do
  let own ← Store.keyof subject
  pickKeys subject own

section Choosing

variable {x : TypeId} {shape : Shape} (h : Reliable s) (hx : Shaped shape x s.2)

include h hx

theorem leads_pick (names : List String) : Leads Turns (pick x names) s fun a s' =>
    Reliable s' ∧ (Unfiltered s.1 → Unfiltered s'.1) ∧
      Stored (.object { fields := shape.fields.filter (·.name ∈ names) }) a s'.2 := by
  apply (leads_mapWith h (m := { keys := .only names }) rfl hx).mono
  rintro a s' _ ⟨h', hu, ha⟩
  rw [shape_filter] at ha
  exact ⟨h', hu, ha⟩

theorem leads_leaveOut (names : List String) : Leads Turns (leaveOut x names) s fun a s' =>
    Reliable s' ∧ (Unfiltered s.1 → Unfiltered s'.1) ∧
      Stored (.object { fields := shape.fields.filter (·.name ∉ names), index := shape.index }) a
        s'.2 := by
  apply (leads_mapWith h (m := { keys := .without names }) rfl hx).mono
  rintro a s' _ ⟨h', hu, ha⟩
  rw [shape_filter] at ha
  exact ⟨h', hu, ha⟩

/-- The fields are picked whose names are among the chosen keys. -/
theorem leads_pickKeys {st : Store} (hf : st.Founded) (hs : st.Extends s.2) {own : TypeId}
    {types : List TypeId} (hkeys : Store.HasKeys shape own types st) {kept : TypeId}
    {choice : TypeId → Bool} {chosen : String → Bool}
    (hchoice : ∀ t name, Stored (.key name) t st → choice t = chosen name)
    (hkept : s.2.Comprises kept (types.filter choice)) :
    Leads Turns (pickKeys x kept) s fun a s' => Reliable s' ∧ (Unfiltered s.1 → Unfiltered s'.1) ∧
      Stored (.object
        { fields := shape.fields.filter fun field =>
          shape.index.isNone && chosen field.name }) a s'.2 := by
  unfold pickKeys
  apply leads_getStore
  have hpick := leads_pick h hx (s.2.keyNames kept)
  have hfields : (shape.fields.filter fun field => shape.index.isNone && chosen field.name) =
      shape.fields.filter (·.name ∈ s.2.keyNames kept) := by
    apply List.filter_congr
    intro field hfield
    rw [Bool.eq_iff_iff, decide_eq_true_iff, hkeys.mem_keyNames hf hs hchoice hkept,
      Bool.and_eq_true, Option.isNone_iff_eq_none]
    exact and_congr_right fun _ => (and_iff_right ⟨field, hfield, rfl⟩).symm
  rw [hfields]
  exact hpick

theorem leads_keyof : Leads Turns (liftM (Store.keyof x) : EvalM TypeId) s fun own s' =>
    Reliable s' ∧ s'.1 = s.1 ∧ Shaped shape x s'.2 ∧
    ∃ types, Store.HasKeys shape own types s'.2 := by
  obtain ⟨hev, hkeys⟩ := Store.hasKeys_keyof h.reached.founded h.reached.shared.indexed hx.form
  exact leads_lift (.lift hev) ⟨h.lift hev, rfl, hx.later hev.grown, hkeys⟩

/-- All keys are picked; if there is an index signature, none of them is a name. -/
theorem leads_pickAll : Leads Turns (pickAll x) s fun a s' =>
    Reliable s' ∧ (Unfiltered s.1 → Unfiltered s'.1) ∧
      Stored (.object { fields := shape.fields.filter fun _ => shape.index.isNone }) a s'.2 := by
  apply (leads_keyof h hx).bind
  rintro own s₁ h₁ ⟨hr, hsame, hx, types, hkeys⟩
  have hall : s₁.2.Comprises own (types.filter fun _ => true) := by
    rw [List.filter_true]
    exact hkeys.comprises s₁.2 (.refl s₁.2)
  apply (leads_pickKeys hr hx hr.reached.founded (.refl s₁.2) hkeys (fun _ _ _ => rfl) hall).mono
  rintro a s' _ ⟨hr', hu, ha⟩
  simp only [Bool.and_true] at ha
  exact ⟨hr', hsame ▸ hu, ha⟩

/-- The fields are picked whose names do not match the keys; if there is an index signature, all
names are gone before that. -/
theorem leads_omitKeys {base : Store} (hb : base.Reached) {keys : TypeId} (hk : base.Intact keys)
    (hev : Discipline.Evolves .free base s.2) (hu : Unfiltered s.1) :
    Leads Turns (omitKeys x keys) s fun a s' => Reliable s' ∧ Stored (.object
      { fields := shape.fields.filter fun field =>
          shape.index.isNone && !((Store.admitsName keys field.name).run base).1 }) a s'.2 := by
  apply (leads_keyof h hx).bind
  rintro own s₁ h₁ ⟨hr₁, hsame, hx₁, types, hkeys⟩
  have hf₁ := hr₁.reached.founded
  have hev₁ := Evolution.trans hev h₁.store
  have htwin {t : TypeId} (ht : t ∈ types) {later : Store} (hs : s₁.2.Extends later) :
      Twin base later s₁.2 t t := by
    cases hi : shape.index with
    | none =>
      obtain ⟨field, _, hstored⟩ := mem_right_of_forall₂ (hkeys.named hi) ht
      exact .made (fun _ hc => by cases hc) (hstored.later hs) hstored
    | some index =>
      rw [(hkeys.indexed fun hn => by cases hi.symm.trans hn).2] at ht
      obtain rfl := List.mem_singleton.mp ht
      exact .same (hb.founded.intact .string)
  have hsteady : ∀ t ∈ types, ∀ later, Discipline.Evolves .free s₁.2 later →
      ((matchPattern t keys).run later).1.isSome = ((matchPattern t keys).run s₁.2).1.isSome :=
    fun t ht later hs => Store.isSome_matchPattern_twin hb hk (Evolution.trans hev₁ hs) hev₁
      (htwin ht hs.grown) .matching
  have hunfiltered : Unfiltered s₁.1 := hsame ▸ hu
  have hchoice (t : TypeId) (name : String) (ht : Stored (.key name) t s₁.2) :
      (!((matchPattern t keys).run s₁.2).1.isSome) =
      !((Store.admitsName keys name).run base).1 := by
    rw [Store.isSome_matchPattern_key hb hk hev₁ (Evolution.refl base) ht]
  apply (leads_exclude hr₁ hunfiltered hkeys.comprises (hkeys.asunder hf₁) hsteady).bind
  rintro kept s₂ h₂ ⟨hr₂, hkept⟩
  apply (leads_pickKeys hr₂ (hx₁.later h₂.store.grown) hf₁ h₂.store.grown hkeys hchoice
    (hkept s₂.2 (.refl s₂.2))).mono
  exact fun _ _ _ ha => ⟨ha.1, ha.2.2⟩

theorem leads_omitNone (hu : Unfiltered s.1) :
    Leads Turns (omitKeys x .never) s fun a s' => Reliable s' ∧
    Stored (.object { fields := shape.fields.filter fun _ => shape.index.isNone }) a s'.2 := by
  have homit := leads_omitKeys h hx h.reached (h.reached.founded.intact .never)
    (Evolution.refl s.2) hu
  have hnone (field : Field) :
      (!((Store.admitsName Intrinsic.never.id field.name).run s.2).1) = true := by
    rw [Bool.not_eq_true']
    exact Store.admitsName_never h.reached.founded h.reached.shared.indexed field.name
  simp only [hnone, Bool.and_true] at homit
  exact homit

end Choosing

end Evaluator

namespace Operation

open Evaluator

/-- To pick all keys of an object, and to leave none of them out, gives the object itself back if it
has no index signature. If it has one, `string` is all that its keys are; as that is no name,
nothing is picked. It makes no difference whether the one is done by the evaluator that did the
other. -/
theorem object_by_own_keys {ops : List Operation} (h : ∀ op ∈ ops, op.isRaw = false)
    {subject : TypeId} {shape : Shape} :
    let st := afterAll .initial ops
    Store.Made (.object shape) subject st →
    let picked := Action.run (pickAll subject) (start, st)
    let omitted := Action.run (omitKeys subject .never) (start, st)
    ∀ r ∈ [picked, omitted, Action.run (omitKeys subject .never) picked.2,
        Action.run (pickAll subject) omitted.2],
      (shape.index = none → r.1 = subject) ∧
        (shape.index ≠ none → Store.Made (.object {}) r.1 r.2.2) := by
  intro st hmade picked omitted
  have hneat : st.Neat := Store.neat_afterAll h
  have hshaped := hneat.shaped hmade.form
  have hstart := reliable_start hneat.reached
  have hunfiltered : Unfiltered start := fun _ _ _ hr => by cases hr
  have hanswer {s : State} (hr : Reliable s) (hs : st.Extends s.2) {a : TypeId} :=
    Store.Stored.whole_or_empty (a := a) hr.reached.shared ((hneat.stored hmade).later hs)
  obtain ⟨h₁, hr₁, hu₁, ha₁⟩ := leads_pickAll hstart hshaped
  obtain ⟨h₂, hr₂, ha₂⟩ := leads_omitNone hstart hshaped hunfiltered
  obtain ⟨h₃, hr₃, ha₃⟩ := leads_omitNone hr₁ (hshaped.later h₁.store.grown) (hu₁ hunfiltered)
  obtain ⟨h₄, hr₄, _, ha₄⟩ := leads_pickAll hr₂ (hshaped.later h₂.store.grown)
  simp only [List.forall_mem_cons]
  refine ⟨hanswer hr₁ h₁.store.grown ha₁, hanswer hr₂ h₂.store.grown ha₂, ?_, ?_,
    fun _ h => by cases h⟩
  · exact hanswer hr₃ (h₁.store.grown.trans h₃.store.grown) ha₃
  · exact hanswer hr₄ (h₂.store.grown.trans h₄.store.grown) ha₄

/-- A plain object, and one with an index signature. The type of a field is not there yet. -/
def plainAndOpen : List Operation :=
  [.build (.object {
      fields :=
        [{ name := "b", type := 30 }, { name := "a", type := .string, optional := true }] }),
    .build (.object {
      fields := [{ name := "a", type := .number }]
      index := some { type := .number } })]

theorem object_by_own_keys_plainAndOpen :
    (∀ op ∈ plainAndOpen, op.isRaw = false) ∧
      let st := afterAll .initial plainAndOpen
      let picked := Action.run (pickAll 12) (start, st)
      let omitted := Action.run (omitKeys 13 .never) (start, st)
      Store.Made (.object {
          fields :=
            [{ name := "b", type := 30 }, { name := "a", type := .string, optional := true }] })
          12 st ∧
        st.size = 14 ∧ picked.1 = 12 ∧ (Action.run (omitKeys 12 .never) picked.2).1 = 12 ∧
        Store.Made (.object {}) omitted.1 omitted.2.2 := by
  have hraw : ∀ op ∈ plainAndOpen, op.isRaw = false := by decide
  have hplain : Store.Made (.object {
      fields :=
        [{ name := "b", type := 30 }, { name := "a", type := .string, optional := true }] }) 12
      (afterAll .initial plainAndOpen) := ⟨by decide +kernel, by decide +kernel⟩
  have hopen : Store.Made (.object {
      fields := [{ name := "a", type := .number }]
      index := some { type := .number } }) 13 (afterAll .initial plainAndOpen) :=
    ⟨by decide +kernel, by decide +kernel⟩
  have hpicked := object_by_own_keys hraw hplain
  have homitted := object_by_own_keys hraw hopen
  refine ⟨hraw, hplain, by decide +kernel, (hpicked _ ?_).1 rfl, (hpicked _ ?_).1 rfl, ?_⟩
  · exact List.mem_cons_self
  · simp
  · exact (homitted _ (List.mem_cons_of_mem _ List.mem_cons_self)).2 fun h => by cases h

/-- With an index signature, neither gives the object back. -/
theorem own_keys_lose_index :
    (∀ op ∈ plainAndOpen, op.isRaw = false) ∧
      let st := afterAll .initial plainAndOpen
      st.form? 13 = some (.object {
          fields := [{ name := "a", type := .number }]
          index := some { type := .number } }) ∧
        st.isReserved 13 = false ∧ (Action.run (pickAll 13) (start, st)).1 ≠ 13 ∧
        (Action.run (omitKeys 13 .never) (start, st)).1 ≠ 13 := by
  decide +kernel

/-- To leave out the keys that can be assigned to a type is to leave out their names, if the object
has no index signature and nothing within reach of the type is missing. The names may be matched at
any time. Either may be first, and the other may be done by the same evaluator or by another fresh
one, after whatever has been added to the store. -/
theorem omitted_by_names {ops : List Operation} (h : ∀ op ∈ ops, op.isRaw = false)
    {subject keys : TypeId} {shape : Shape} {names : List String} :
    let st := afterAll .initial ops
    st.form? subject = some (.object shape) → shape.index = none → st.Intact keys →
    (∀ field ∈ shape.fields, ∃ asked, Discipline.Evolves .free st asked ∧
      (field.name ∈ names ↔ ((Store.admitsName keys field.name).run asked).1 = true)) →
    (let omitted := Action.run (omitKeys subject keys) (start, st)
     ∀ e st', e = start ∨ e = omitted.2.1 → Discipline.Evolves .free omitted.2.2 st' →
      (Action.run (leaveOut subject names) (e, st')).1 = omitted.1) ∧
    (let left := Action.run (leaveOut subject names) (start, st)
     ∀ e st', e = start ∨ e = left.2.1 → Discipline.Evolves .free left.2.2 st' →
      (Action.run (omitKeys subject keys) (e, st')).1 = left.1) := by
  intro st hsubject hindex hkeys hnames
  have hneat : st.Neat := Store.neat_afterAll h
  have hshaped := hneat.shaped hsubject
  have hstart (st' : Store) (hev : Discipline.Evolves .free st st') : Reliable (start, st') :=
    reliable_start (hev.reached hneat.reached)
  have hunfiltered : Unfiltered start := fun _ _ _ hr => by cases hr
  have hshape := Store.shape_by_names hneat.reached hkeys hindex hnames
  have hbegin := hstart st (Evolution.refl st)
  constructor
  · intro omitted e st' he hev
    obtain ⟨hturns, hr, ha⟩ :=
      leads_omitKeys hbegin hshaped hneat.reached hkeys (Evolution.refl st) hunfiltered
    have hlater : Discipline.Evolves .free st st' := Evolution.trans hturns.store hev
    have hr' : Reliable (e, st') := by
      rcases he with rfl | rfl
      · exact hstart st' hlater
      · exact hr.lift hev
    obtain ⟨hturns', hr', _, hb⟩ := leads_leaveOut hr' (hshaped.later hlater.grown) names
    rw [hshape] at ha
    exact hb.unique hr'.reached.shared (ha.later (hev.grown.trans hturns'.store.grown))
  · intro left e st' he hev
    obtain ⟨hturns, hr, hu, ha⟩ := leads_leaveOut hbegin hshaped names
    have hlater : Discipline.Evolves .free st st' := Evolution.trans hturns.store hev
    have hr' : Reliable (e, st') ∧ Unfiltered e := by
      rcases he with rfl | rfl
      · exact ⟨hstart st' hlater, hunfiltered⟩
      · exact ⟨hr.lift hev, hu hunfiltered⟩
    obtain ⟨hturns', hr', hb⟩ :=
      leads_omitKeys hr'.1 (hshaped.later hlater.grown) hneat.reached hkeys hlater hr'.2
    rw [hshape] at hb
    exact hb.unique hr'.reached.shared (ha.later (hev.grown.trans hturns'.store.grown))

/-- An object that refers to itself, and keys of which one is a name of it. -/
def recursiveRow : List Operation :=
  [.build .reserve,
    .build (.defineObject 12 {
      fields := [{ name := "next", type := 12 }, { name := "id", type := .string }] }),
    .build (.literal (.string "next")), .build (.union [.number, 13])]

theorem omitted_by_names_recursiveRow :
    (∀ op ∈ recursiveRow, op.isRaw = false) ∧
      let st := afterAll .initial recursiveRow
      let omitted := Action.run (omitKeys 12 14) (start, st)
      st.form? 12 = some (.object {
          fields := [{ name := "next", type := 12 }, { name := "id", type := .string }] }) ∧
        st.Intact 14 ∧ ((Store.admitsName 14 "next").run st).1 = true ∧
        ((Store.admitsName 14 "id").run st).1 = false ∧
        (Action.run (leaveOut 12 ["next"]) (omitted.2.1, omitted.2.2)).1 = omitted.1 := by
  have hraw : ∀ op ∈ recursiveRow, op.isRaw = false := by decide
  have hform : (afterAll .initial recursiveRow).form? 12 = some (.object {
      fields := [{ name := "next", type := 12 },
        { name := "id", type := .string }] }) := by decide +kernel
  have hkeys : (afterAll .initial recursiveRow).Intact 14 :=
    Store.intact_of_builds (by decide +kernel) (by decide +kernel)
  have hnext : ((Store.admitsName 14 "next").run (afterAll .initial recursiveRow)).1 = true := by
    decide +kernel
  have hid : ((Store.admitsName 14 "id").run (afterAll .initial recursiveRow)).1 = false := by
    decide +kernel
  have hnames : ∀ field ∈ [{ name := "next", type := 12 }, { name := "id", type := .string }],
      ∃ asked, Discipline.Evolves .free (afterAll .initial recursiveRow) asked ∧
        (Field.name field ∈ ["next"] ↔ ((Store.admitsName 14 field.name).run asked).1 = true) := by
    intro field hfield
    refine ⟨_, Evolution.refl _, ?_⟩
    rcases List.mem_pair.mp hfield with rfl | rfl
    · simp [hnext]
    · simp [hid]
  have homitted := (omitted_by_names hraw hform rfl hkeys hnames).1
  exact ⟨hraw, hform, hkeys, hnext, hid, homitted _ _ (.inr rfl) (Evolution.refl _)⟩

/-- Keys that mention the type that will be built next. -/
def hastyKeys : List Operation :=
  [.build (.object { fields := [{ name := "a", type := .string },
    { name := "b", type := .number }] }),
    .build (.union [.number, 16]), .build (.literal (.string "a")), .build (.literal (.string "b"))]

/-- The type that is built next is the union of the object's own keys. None of its names has matched
before that, and all of them do then. -/
theorem names_match_unborn :
    (∀ op ∈ hastyKeys, op.isRaw = false) ∧
      let st := afterAll .initial hastyKeys
      st.form? 12 = some (.object {
          fields := [{ name := "a", type := .string }, { name := "b", type := .number }] }) ∧
        (∀ name ∈ ["a", "b"], ((Store.admitsName 13 name).run st).1 = false) ∧
        (Action.run (leaveOut 12 []) (Action.run (omitKeys 12 13) (start, st)).2).1 ≠
          (Action.run (omitKeys 12 13) (start, st)).1 := by
  decide +kernel

end Operation

end TypeCalculus
