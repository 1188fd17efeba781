import TypeCalculus.Proofs.Distribution

namespace TypeCalculus

namespace Store

/-- The two types are made of the members of the whole, each of which is a member of only one. -/
structure Parted (st : Store) (whole left right : TypeId) : Prop where
  union : (mkUnion [left, right]).run st = (whole, st)
  disjoint {m : TypeId} : m ∈ st.unionMembers left → m ∉ st.unionMembers right

theorem ne_any_of_mem_unionMembers {st : Store} (ht : st.Tidy) {t m : TypeId} (h : t ≠ .any)
    (hm : m ∈ st.unionMembers t) : m ≠ .any := by
  rcases unionMembers_cases ht t with ⟨_, he⟩ | ⟨_, he, _⟩ | ⟨id, _, he, hr⟩
  · rw [he] at hm
    cases hm
  · rw [he] at hm
    exact List.mem_singleton.mp hm ▸ h
  · rw [he] at hm
    exact (hr.plain hm).1

end Store

namespace Substitution

variable {st : Store} (s : Substitution)

/-- Whatever the limits are, the first step is taken. -/
theorem run_applyOnce (t : TypeId) (st : Store) : ∃ replace : TypeId → SubstM TypeId,
    (s.applyOnce t).run st =
      ((Action.run (step replace t) (s, st)).1, (Action.run (step replace t) (s, st)).2.2) := by
  have hrun : (s.applyOnce t).run st =
      let r := Action.run (descend step (fun _ => return .never) s.guard.limits.depth t) (s, st)
      (r.1, r.2.2) := rfl
  rw [hrun]
  cases s.guard.limits.depth with
  | zero => exact ⟨_, rfl⟩
  | succ room => exact ⟨_, rfl⟩

theorem applyOnce_never : (s.applyOnce .never).run st = (.never, st) := by
  obtain ⟨replace, hrun⟩ := s.run_applyOnce .never st
  rw [hrun]
  rfl

/-- A variable that is met first gives way to what stands in its place. -/
theorem applyOnce_variable (hf : st.Founded) {t x : TypeId} {node : Node}
    (hc : st.cells[t]? = some (.interned node)) (hn : ∀ kind, node ≠ .intrinsic kind)
    (hbound : st.containsBound s.params.contains t = true) (hm : s.memo = .empty)
    (hg : s.guard = .start .substitution)
    (hx : ∀ (replace : TypeId → SubstM TypeId) (g : Guard TypeId), Leads (fun _ _ => True)
      (rebuild replace t) ({ s with guard := g }, st) fun a s' => a = x ∧ s'.2 = st) :
    (s.applyOnce t).run st = (x, st) := by
  have hl : st.lookup t = some node := by simp [Store.lookup, hc, Cell.node?]
  have hplain : t.isIntrinsic = false := by
    rw [← Bool.not_eq_true]
    intro hi
    obtain ⟨kind, rfl⟩ := TypeId.isIntrinsic_iff.mp hi
    exact hn kind (Option.some.inj ((hf.lookup kind).symm.trans hl)).symm
  have henter : (s.guard.enter t).1 = .entered := by
    rw [hg]
    exact Guard.enter_first ⟨by decide, by decide⟩ rfl rfl rfl t
  have hmemo : s.memo.get? t = none := by
    rw [hm]
    rfl
  obtain ⟨replace, hrun⟩ := s.run_applyOnce t st
  have hrebuild (g : Guard TypeId) : Leads (fun _ _ => True) (rebuildAny replace t)
      ({ s with guard := g }, st) fun a s' => a = x ∧ s'.2 = st := by
    have hr : st.isReserved t = false := by simp [Store.isReserved, hc]
    unfold rebuildAny
    apply leads_getStore
    rw [if_neg (by simp [hr])]
    unfold Leads
    rw [Action.run_bind]
    exact ⟨trivial, (hx replace g).2⟩
  have hstep : Leads (fun _ _ => True) (step replace t) (s, st) fun a s' => a = x ∧ s'.2 = st := by
    unfold step
    rw [if_neg (by simp [hplain])]
    apply leads_get
    simp only [hmemo]
    apply leads_getStore
    simp only [hbound, if_true]
    unfold Leads
    rw [run_visit]
    have henter : ((Guarded.guard s).enter t).1 = .entered := henter
    simp only [henter]
    exact ⟨trivial, (hrebuild _).2⟩
  rw [hrun, hstep.2.1, hstep.2.2]

section Variables

variable (hf : st.Founded) {t x : TypeId} {name : String} (hm : s.memo = .empty)
  (hg : s.guard = .start .substitution)

include hf hm hg

/-- A parameter that is bound gives way to what it is bound to. -/
theorem applyOnce_param (hc : st.cells[t]? = some (.interned (.param name)))
    (hx : s.params.get? name = some x) : (s.applyOnce t).run st = (x, st) := by
  have hl : st.lookup t = some (.param name) := by simp [Store.lookup, hc, Cell.node?]
  have hbound : st.containsBound s.params.contains t = true := by
    rw [← Bool.not_eq_false, Store.containsBound_eq_false hf]
    intro h
    cases ((h t .refl).2 name (Store.form_of_lookup hl)).symm.trans hx
  apply s.applyOnce_variable hf hc (fun _ h => by cases h) hbound hm hg
  intro replace g
  unfold rebuild
  apply leads_getStore
  simp only [hl]
  apply leads_get
  rw [hx]
  exact ⟨trivial, rfl, rfl⟩

/-- So does an infer variable. One that is not bound gives way to `never`. -/
theorem run_applyOnce_infer (hc : st.cells[t]? = some (.interned (.infer name))) :
    (s.applyOnce t).run st = ((s.infers.get? name).getD .never, st) := by
  have hl : st.lookup t = some (.infer name) := by simp [Store.lookup, hc, Cell.node?]
  have hbound : st.containsBound s.params.contains t = true := by
    rw [← Bool.not_eq_false, Store.containsBound_eq_false hf]
    exact fun h => (h t .refl).1 name (Store.form_of_lookup hl)
  apply s.applyOnce_variable hf hc (fun _ h => by cases h) hbound hm hg
  intro replace g
  unfold rebuild
  apply leads_getStore
  simp only [hl]
  apply leads_get
  exact ⟨trivial, rfl, rfl⟩

theorem applyOnce_infer (hc : st.cells[t]? = some (.interned (.infer name)))
    (hx : s.infers.get? name = some x) : (s.applyOnce t).run st = (x, st) := by
  rw [s.run_applyOnce_infer hf hm hg hc, hx]
  rfl

end Variables

end Substitution

namespace Evaluator

/-- The conditional that keeps the members which match a pattern, or those which do not. -/
def sieve (keep : Bool) (pattern self : TypeId) : Conditional where
  param := some subjectName
  pattern := pattern
  yes := if keep then self else .never
  no := if keep then .never else self
  distributive := true

def sift (keep : Bool) (pattern subject : TypeId) : EvalM TypeId := do
  let self ← Store.mkParam subjectName
  choose (sieve keep pattern self) subject

/-- Excluding and extracting are one operator, with the branches exchanged. -/
theorem exclude_eq (subject excluded : TypeId) :
    exclude subject excluded = sift false excluded subject :=
  rfl

theorem extract_eq (subject extracted : TypeId) :
    extract subject extracted = sift true extracted subject :=
  rfl

def Sifted (limits : Limits) (keep : Bool) (pattern x a : TypeId) (st : Store) : Prop :=
  ∃ found, (matchPattern x pattern limits).run st = (found, st) ∧
    a = if found.isSome = keep then x else .never

/-- The member itself stands in the branch that keeps it. -/
theorem instantiate_sieve {st : Store} (hf : st.Founded) {self : TypeId}
    (hself : st.cells[self]? = some (.interned (.param subjectName))) (keep kept : Bool)
    (pattern x : TypeId) (bindings : Bindings) :
    (instantiate (sieve keep pattern self) (if kept then self else .never) bindings x).run st =
      (if kept then x else .never, st) := by
  cases kept with
  | true =>
    exact Substitution.applyOnce_param _ hf rfl rfl hself ((Dict.get?_insert ..).trans (if_pos rfl))
  | false => exact Substitution.applyOnce_never _

/-- A member is kept or dropped as matching settles it, and nothing is added to the store but by
that. -/
theorem run_branch_sieve {st : Store} (hf : st.Founded) {self : TypeId}
    (hself : st.cells[self]? = some (.interned (.param subjectName))) (limits : Limits)
    (keep : Bool) (pattern : TypeId) {x : TypeId} (hany : x ≠ .any) :
    (branch limits (sieve keep pattern self) x).run st =
      ((if ((matchPattern x pattern limits).run st).1.isSome = keep then x else .never),
        ((matchPattern x pattern limits).run st).2) := by
  have hev : st.Extends ((matchPattern x pattern limits).run st).2 :=
    (runs_matchPattern (r := (Discipline.rules .free).toBuildRules) (Discipline.good_free st)
      (Discipline.fit_free st x) (Discipline.fit_free st pattern) limits).leads.1.grown
  have hcell := (hev.cell (List.getElem?_eq_some_iff.mp hself).1).trans hself
  have hfounded := hev.founded hf
  rcases hr : (matchPattern x pattern limits).run st with ⟨found, st₁⟩
  rw [hr] at hcell hfounded
  have hrun : Action.run (matchPattern x (sieve keep pattern self).pattern limits) st =
      (found, st₁) :=
    hr
  show Action.run (branch limits (sieve keep pattern self) x) st = _
  unfold branch
  rw [Action.run_bind, hrun]
  simp only [hany, decide_false, Bool.false_and]
  cases found with
  | some bindings =>
    have hyes := instantiate_sieve hfounded hcell keep keep pattern x bindings
    cases keep with
    | true => exact hyes
    | false => exact hyes
  | none =>
    have hno := instantiate_sieve hfounded hcell keep (!keep) pattern x .empty
    cases keep with
    | true => exact hno
    | false => exact hno

section Sifted

variable {limits : Limits} {keep : Bool} {pattern x a : TypeId} {st st' : Store}
variable (hg : Discipline.Good .typed st) (hx : x < st.size) (hpattern : pattern < st.size)

include hg hx hpattern

/-- Whether a member matches is settled for good. -/
theorem Sifted.later (h : Sifted limits keep pattern x a st) (hs : st.Extends st') :
    Sifted limits keep pattern x a st' := by
  obtain ⟨found, hrun, ha⟩ := h
  have hecho := (runs_matchPattern (r := (Discipline.rules .typed).toBuildRules) hg (fit_typed hx)
    (fit_typed hpattern) limits).echo st'
  have hfirst : Action.run (matchPattern x pattern limits) st = (found, st) := hrun
  rw [hfirst] at hecho
  exact ⟨found, hecho ⟨(fun h => by cases h), hs.widens, fun _ => hs⟩, ha⟩

/-- The branch that is chosen keeps the member or drops it, as matching settles it. -/
theorem sifted_branch {self : TypeId}
    (hself : st.cells[self]? = some (.interned (.param subjectName))) (hany : x ≠ .any)
    (limits : Limits) (keep : Bool) :
    Sifted limits keep pattern x ((branch limits (sieve keep pattern self) x).run st).1
      ((branch limits (sieve keep pattern self) x).run st).2 := by
  have hmatch := runs_matchPattern (r := (Discipline.rules .typed).toBuildRules) hg (fit_typed hx)
    (fit_typed hpattern) limits
  have hagain : (matchPattern x pattern limits).run ((matchPattern x pattern limits).run st).2 =
      (matchPattern x pattern limits).run st :=
    hmatch.echo _ ⟨(fun h => by cases h), .refl _, fun _ => .refl _⟩
  rw [run_branch_sieve (hg.anchored fun h => by cases h).founded hself limits keep pattern hany]
  exact ⟨_, hagain, rfl⟩

end Sifted

variable {s s' : State}

/-- An evaluator at rest recalls what it is asked for, or chooses a branch and remembers the
answer. -/
theorem run_conditionalMember (h : Resting s.1) (hl : s.1.limits.Positive) (id : ConditionalId)
    (x : TypeId) :
    let task : Task := ⟨.conditional id, x⟩
    let chosen := (branch s.1.limits (s.2.conditional id) x).run s.2
    (∃ a, Recalls s.1 task a ∧ Action.run (conditionalMember id x) s = (a, asked s task)) ∨
      ∃ e : Evaluator, Action.run (conditionalMember id x) s = (chosen.1, e, chosen.2) ∧
        Recalls e task chosen.1 ∧ ∀ other, other ≠ task →
        e.memo.get? other = s.1.memo.get? other := by
  intro task chosen
  have hrun : Action.run (conditionalMember id x) s =
      Action.run (memoized task (chooseBranch (s.2.conditional id) x)) s := rfl
  rw [hrun]
  apply run_memoized h hl
  intro e he
  rw [run_chooseBranch, he]

section Filters

variable (keep : Bool) (pattern : TypeId) (id : ConditionalId)

def Faithful (s : State) : Prop := ∀ x a, Recalls s.1 ⟨.conditional id, x⟩ a →
  x < s.2.size ∧ Sifted s.1.limits keep pattern x a s.2

structure Filters (s s' : State) : Prop extends Proceeds s s' where
  others {task : Task} : task.operator ≠ .conditional id → s'.1.memo.get? task = s.1.memo.get? task
  faithful : Proper s → pattern < s.2.size → Faithful keep pattern id s →
    Faithful keep pattern id s'

variable {keep pattern id}

theorem Proceeds.size (h : Proceeds s s') : s.2.size ≤ s'.2.size := h.grows.size

instance : Evolution (Filters keep pattern id) where
  refl s := ⟨Evolution.refl s, fun _ => rfl, fun _ _ h => h⟩
  trans h h' := ⟨Evolution.trans h.toProceeds h'.toProceeds,
    fun ht => (h'.others ht).trans (h.others ht),
    fun hp hpattern hf => h'.faithful (hp.later h.toProceeds) (Nat.lt_of_lt_of_le hpattern h.size)
      (h.faithful hp hpattern hf)⟩

theorem Faithful.later (hp : Proper s) (hpattern : pattern < s.2.size)
    (h : Faithful keep pattern id s) (hs : Proceeds s s') {x a : TypeId}
    (hr : Recalls s.1 ⟨.conditional id, x⟩ a) :
    x < s'.2.size ∧ Sifted s'.1.limits keep pattern x a s'.2 := by
  obtain ⟨hx, hsifted⟩ := h x a hr
  rw [hs.turns.limits]
  exact ⟨Nat.lt_of_lt_of_le hx hs.size,
    hsifted.later hp.ready.good hx hpattern hs.upholds.store.grown⟩

/-- What a filter does to one member. -/
theorem filters_member (hp : Proper s) {self : TypeId}
    (hc : s.2.conditional id = sieve keep pattern self)
    (hself : s.2.cells[self]? = some (.interned (.param subjectName)))
    (hpattern : pattern < s.2.size) {x : TypeId} (hx : x < s.2.size) (hany : x ≠ .any) :
    Leads (Filters keep pattern id) (conditionalMember id x) s fun a s' =>
      Recalls s'.1 ⟨.conditional id, x⟩ a := by
  have hmember : Leads Proceeds (conditionalMember id x) s fun a s' =>
      Recalls s'.1 ⟨.conditional id, x⟩ a := proceeds_member hp (.conditional id) 0 hx
  unfold Leads at hmember ⊢
  rcases run_conditionalMember hp.resting hp.positive id x
    with ⟨a, _, hrun⟩ | ⟨e, hrun, hchosen, hothers⟩
  · rw [hrun] at hmember ⊢
    exact ⟨⟨hmember.1, fun _ => rfl, fun _ _ hf => hf⟩, hmember.2⟩
  · rw [hrun] at hmember ⊢
    refine ⟨⟨hmember.1, fun htask => ?_, fun _ _ hf y b hr => ?_⟩, hmember.2⟩
    · exact hothers _ fun h => htask (by rw [h])
    · by_cases hy : y = x
      · subst hy
        cases hr.symm.trans hchosen
        have hlimits : e.limits = s.1.limits := hmember.1.turns.limits
        have hsifted := sifted_branch hp.ready.good hx hpattern hself hany s.1.limits keep
        rw [hlimits, hc]
        exact ⟨Nat.lt_of_lt_of_le hx (hc ▸ hmember.1.size), hsifted⟩
      · have hne : (⟨.conditional id, y⟩ : Task) ≠ ⟨.conditional id, x⟩ := fun h =>
          hy (congrArg Task.subject h)
        exact hf.later hp hpattern hmember.1 ((hothers _ hne).symm.trans hr)

/-- What a filter does to a type. -/
theorem filters_conditional (hp : Proper s) {self : TypeId}
    (hc : s.2.conditionals.get? id = some (sieve keep pattern self))
    (hself : s.2.cells[self]? = some (.interned (.param subjectName)))
    (hpattern : pattern < s.2.size) {subject : TypeId} (hsubject : subject < s.2.size)
    (hany : subject ≠ .any) :
    Leads (Filters keep pattern id) (applyConditional id subject) s fun a s' =>
      Gathered (.conditional id) subject a s' := by
  have hcond {st' : Store} (h : s.2.Extends st') : st'.conditional id =
      sieve keep pattern self := by
    rw [Store.conditional, h.conditionals.get? hc]
    rfl
  have hdistributive : s.2.Distributive (.conditional id) := by
    show (s.2.conditional id).distributive = true
    rw [hcond (.refl _)]
    rfl
  have hgathered := proceeds_distributive hp hdistributive hsubject
  have hfilters : Leads (Filters keep pattern id) (applyOperator (.conditional id) subject) s
      fun _ _ => True := by
    apply leads_distributive hdistributive
    apply Store.leads_distribute Prod.snd (A := fun x b s => Recalls s.1 ⟨.conditional id, x⟩ b) rfl
    · intro x b s₁ s₂ _ h₂ hr
      exact h₂.turns.done hr
    · intro x hx s₁ h₁
      have hgrown := h₁.upholds.store.grown
      have hlt := hp.wellFormed.lt_size_of_unionMembers hsubject hx
      exact filters_member (hp.later h₁.toProceeds) (hcond hgrown)
        ((hgrown.cell (List.getElem?_eq_some_iff.mp hself).1).trans hself)
        (Nat.lt_of_lt_of_le hpattern h₁.size) (Nat.lt_of_lt_of_le hlt h₁.size)
        (Store.ne_any_of_mem_unionMembers hp.tidy hany hx)
    · exact fun _ => trivial
    · exact fun _ _ _ _ _ _ => trivial
    · intro answers s₁ h₁ _ hall
      have hp₁ := hp.later h₁.toProceeds
      have hunion := (proceeds_mkUnion hp₁ fun b hb => by
        obtain ⟨x, _, hr⟩ := mem_right_of_forall₂ hall hb
        exact hp₁.recalls_lt hr).1
      exact leads_lift ⟨hunion, fun _ => rfl, fun hp hpattern hf x a hr =>
        hf.later hp hpattern hunion hr⟩ trivial
  exact ⟨hfilters.1, hgathered.2⟩

end Filters

def Sieved (limits : Limits) (keep : Bool) (pattern subject a : TypeId) (st : Store) : Prop :=
  ∃ answers, List.Forall₂ (fun x b => Sifted limits keep pattern x b st) (st.unionMembers subject)
    answers ∧ (Store.mkUnion answers).run st = (a, st)

def Unasked (keep : Bool) (pattern : TypeId) (s : State) : Prop := ∀ task a, Recalls s.1 task a →
  ∃ id self, task.operator = .conditional id ∧
    s.2.conditionals.get? id = some (sieve (!keep) pattern self)

section Sift

variable {keep : Bool} {pattern subject : TypeId}

/-- The two filters are different conditionals. -/
theorem sieve_ne {self other : TypeId} (h : self ≠ .never) :
    sieve keep pattern self ≠ sieve (!keep) pattern other := by
  intro he
  cases keep with
  | true => exact h (congrArg Conditional.yes he)
  | false => exact h (congrArg Conditional.no he)

theorem sieved_conditional (hp : Proper s) {id : ConditionalId} {self : TypeId}
    (hc : s.2.conditionals.get? id = some (sieve keep pattern self))
    (hself : s.2.cells[self]? = some (.interned (.param subjectName)))
    (hpattern : pattern < s.2.size) (hsubject : subject < s.2.size) (hany : subject ≠ .any)
    (hnew : Unasked keep pattern s) :
    Leads Proceeds (applyConditional id subject) s fun a s' =>
      Sieved s'.1.limits keep pattern subject a s'.2 ∧
        (s.1.memo = .empty → Unasked (!keep) pattern s') := by
  have hnever : self ≠ .never := by
    rintro rfl
    cases (hp.anchored.founded .never).symm.trans hself
  have hfaithful : Faithful keep pattern id s := by
    intro x a hr
    obtain ⟨_, other, ho, hget⟩ := hnew _ a hr
    cases ho
    exact absurd (Option.some.inj (hc.symm.trans hget)) (sieve_ne hnever)
  obtain ⟨hfilters, answers, hall, hunion⟩ := filters_conditional hp hc hself hpattern hsubject hany
  have hafter := hfilters.faithful hp hpattern hfaithful
  refine ⟨hfilters.toProceeds, ⟨answers, hall.imp fun x b hr => (hafter x b hr).2, hunion⟩, ?_⟩
  intro hempty task a hr
  refine ⟨id, self, ?_, ?_⟩
  · apply Classical.byContradiction
    intro hne
    have hnone := hfilters.others hne
    rw [hempty] at hnone
    cases hnone.symm.trans hr
  · rw [Bool.not_not]
    exact hfilters.upholds.store.grown.conditionals.get? hc

theorem Unasked.lift (h : Unasked keep pattern s) {st' : Store} (hs : s.2.Extends st') :
    Unasked keep pattern (s.1, st') := by
  intro task a hr
  obtain ⟨id, self, ho, hget⟩ := h task a hr
  exact ⟨id, self, ho, hs.conditionals.get? hget⟩

/-- A filter answers with the union of the members that it keeps. -/
theorem sieved_sift (hp : Proper s) (hpattern : pattern < s.2.size) (hsubject : subject < s.2.size)
    (hany : subject ≠ .any) (hnew : Unasked keep pattern s) :
    Leads Proceeds (sift keep pattern subject) s fun a s' =>
      Sieved s'.1.limits keep pattern subject a s'.2 ∧
        (s.1.memo = .empty → Unasked (!keep) pattern s') := by
  have hmade := (Discipline.runs_mkParam hp.ready.good subjectName).leads.1
  have hparam : Leads Proceeds (liftM (Store.mkParam subjectName) : EvalM TypeId) s fun self s' =>
      s'.1 = s.1 ∧ s'.2.cells[self]? = some (.interned (.param subjectName)) :=
    leads_lift (.lift hmade) ⟨rfl, Discipline.cell_intern (fun _ h => by cases h)
      (hmade.grown.indexed.mpr hp.anchored.indexed)⟩
  apply hparam.bind
  intro self s₁ h₁ ⟨he₁, hself⟩
  have hp₁ := hp.later h₁
  have hlt : self < s₁.2.size := (List.getElem?_eq_some_iff.mp hself).1
  have hnever : TypeId.never < s₁.2.size := (hp₁.anchored.founded.solid .never).lt_size
  have hcond : Leads Proceeds (liftM (Store.internConditional (sieve keep pattern self)) :
      EvalM ConditionalId) s₁ fun id s' =>
        s'.1 = s₁.1 ∧ s'.2.conditionals.get? id = some (sieve keep pattern self) := by
    have hparts : (sieve keep pattern self).pattern < s₁.2.size ∧
        (sieve keep pattern self).yes < s₁.2.size ∧ (sieve keep pattern self).no < s₁.2.size := by
      refine ⟨Nat.lt_of_lt_of_le hpattern h₁.size, ?_, ?_⟩ <;> cases keep <;> assumption
    have hintern := Discipline.leads_internConditional (d := .typed) fun _ => hparts
    exact leads_lift (.lift hintern.1)
      ⟨rfl, hintern.2 (hintern.1.grown.indexed.mpr hp₁.anchored.indexed)⟩
  apply hcond.bind
  intro id s₂ h₂ ⟨he₂, hget⟩
  have hgrown := (Evolution.trans h₁ h₂).upholds.store.grown
  have hsame : s₂.1 = s.1 := he₂.trans he₁
  have hnew₂ : Unasked keep pattern s₂ := by
    have hlift := hnew.lift hgrown
    rw [← hsame] at hlift
    exact hlift
  have hself₂ := (h₂.upholds.store.grown.cell hlt).trans hself
  rw [← hsame]
  exact sieved_conditional (hp₁.later h₂) hget hself₂ (Nat.lt_of_lt_of_le hpattern hgrown.size)
    (Nat.lt_of_lt_of_le hsubject hgrown.size) hany hnew₂

end Sift

section Parts

variable {limits : Limits} {keep : Bool} {pattern subject a b : TypeId} {st : Store}

section Answers

variable {answers : List TypeId}
variable (h : List.Forall₂ (fun x b => Sifted limits keep pattern x b st)
    (st.unionMembers subject) answers)

include h

theorem sieved_lt (hw : st.WellFormed) (hsubject : subject < st.size) {y : TypeId}
    (hy : y ∈ answers) :
    y < st.size := by
  obtain ⟨x, hx, _, _, rfl⟩ := mem_right_of_forall₂ h hy
  split
  · exact hw.lt_size_of_unionMembers hsubject hx
  · exact (hw.founded.solid .never).lt_size

/-- A filter leaves those members for which matching comes out as it is to. -/
theorem mem_sieved (ht : st.Tidy) (hw : st.WellFormed) (m : TypeId) : m ∈ st.flat answers ↔
    m ∈ st.unionMembers subject ∧ ((matchPattern m pattern limits).run st).1.isSome = keep := by
  rw [Store.mem_flat]
  constructor
  · rintro ⟨y, hy, hm⟩
    obtain ⟨x, hx, found, hrun, rfl⟩ := mem_right_of_forall₂ h hy
    split at hm
    · rename_i hk
      rw [Store.unionMembers_of_mem ht hw hx] at hm
      obtain rfl := List.mem_singleton.mp hm
      rw [hrun]
      exact ⟨hx, hk⟩
    · cases hm
  · rintro ⟨hm, hk⟩
    obtain ⟨y, hy, found, hrun, rfl⟩ := mem_right_of_forall₂ h.flip hm
    rw [hrun] at hk
    rw [if_pos hk] at hy
    refine ⟨m, hy, ?_⟩
    rw [Store.unionMembers_of_mem ht hw hm]
    exact List.mem_singleton.mpr rfl

end Answers

theorem Sieved.later (hg : Discipline.Good .typed st) (hsubject : subject < st.size)
    (hpattern : pattern < st.size) (h : Sieved limits keep pattern subject a st) {st' : Store}
    (hs : st.Extends st') : Sieved limits keep pattern subject a st' := by
  have hw := hg.wellFormed
  obtain ⟨answers, hall, hunion⟩ := h
  refine ⟨answers, ?_, ?_⟩
  · rw [hw.unionMembers_grows hs.grows hsubject]
    apply forall₂_of_mem hall
    intro x hx b hb
    exact hb.later hg (hw.lt_size_of_unionMembers hsubject hx) hpattern hs
  · have hagain := Store.repeats_mkUnion hw (fun y hy => sieved_lt hall hw hsubject hy) st'
    rw [hunion] at hagain
    exact hagain hs.grows

/-- Each member is kept by one of the two filters. -/
theorem parted_sieved (hg : Discipline.Good .typed st) (hr : st.Reached)
    (hsubject : subject < st.size) (ha : Sieved limits false pattern subject a st)
    (hb : Sieved limits true pattern subject b st) :
    st.Parted subject a b := by
  have ht := hg.tidy rfl
  have hanchored := hg.anchored fun h => by cases h
  have hw := hg.wellFormed
  obtain ⟨dropped, hdropped, hleft⟩ := ha
  obtain ⟨kept, hkept, hright⟩ := hb
  have hlt₁ : ∀ y ∈ dropped, y < st.size := fun y => sieved_lt hdropped hw hsubject
  have hlt₂ : ∀ y ∈ kept, y < st.size := fun y => sieved_lt hkept hw hsubject
  have hlt : ∀ y ∈ [subject], y < st.size := by simp [hsubject]
  constructor
  · apply Store.mkUnion_pair ht hr.shared hanchored hlt₁ hlt₂ hlt hleft hright
      (Store.mkUnion_self ht hr.shared hanchored subject)
    intro m
    rw [mem_sieved hdropped ht hw, mem_sieved hkept ht hw, ← and_or_left, Store.mem_flat]
    cases ((matchPattern m pattern limits).run st).1.isSome <;> simp
  · intro m hm hm'
    have hm := ((Store.mem_unionMembers_mkUnion hw hlt₁ hleft m).mp hm).mem
    have hm' := ((Store.mem_unionMembers_mkUnion hw hlt₂ hright m).mp hm').mem
    rw [mem_sieved hdropped ht hw] at hm
    rw [mem_sieved hkept ht hw] at hm'
    cases hm.2.symm.trans hm'.2

/-- One filter after the other, the second by the same evaluator or by another fresh one. -/
theorem sieved_both (hg : Discipline.Good .typed st) (hr : st.Reached)
    (hsubject : subject < st.size) (hpattern : pattern < st.size) (hany : subject ≠ .any)
    (keep : Bool) {first : TypeId × State}
    (hfirst : Action.run (sift keep pattern subject) (start, st) = first) {e : Evaluator}
    (he : e = start ∨ e = first.2.1) {second : TypeId × State}
    (hsecond : Action.run (sift (!keep) pattern subject) (e, first.2.2) = second) :
    st.Extends second.2.2 ∧ Discipline.Good .typed second.2.2 ∧ second.2.2.Reached ∧
      Sieved .evaluation keep pattern subject first.1 second.2.2 ∧
      Sieved .evaluation (!keep) pattern subject second.1 second.2.2 := by
  have hp := proper_start hg hr
  have hunasked (keep : Bool) (st : Store) : Unasked keep pattern (start, st) :=
    fun _ _ hr => by cases hr
  obtain ⟨h₁, hsieved, hnew⟩ := sieved_sift hp hpattern hsubject hany (hunasked keep st)
  rw [hfirst] at h₁ hsieved hnew
  have hp₁ := hp.later h₁
  have hlimits : first.2.1.limits = .evaluation := h₁.turns.limits
  have hgrown : st.Extends first.2.2 := h₁.upholds.store.grown
  have hsubject₁ := Nat.lt_of_lt_of_le hsubject hgrown.size
  have hpattern₁ := Nat.lt_of_lt_of_le hpattern hgrown.size
  have hagain : Proper (e, first.2.2) ∧ Unasked (!keep) pattern (e, first.2.2) ∧
      e.limits = .evaluation := by
    rcases he with rfl | rfl
    · exact ⟨proper_start hp₁.ready.good hp₁.reached, hunasked _ _, rfl⟩
    · exact ⟨hp₁, hnew rfl, hlimits⟩
  obtain ⟨h₂, hsieved₂, _⟩ := sieved_sift hagain.1 hpattern₁ hsubject₁ hany hagain.2.1
  rw [hsecond] at h₂ hsieved₂
  have hp₂ := hagain.1.later h₂
  have hgrown₂ : first.2.2.Extends second.2.2 := h₂.upholds.store.grown
  have hlimits₂ : second.2.1.limits = .evaluation := h₂.turns.limits.trans hagain.2.2
  rw [hlimits] at hsieved
  rw [hlimits₂] at hsieved₂
  exact ⟨hgrown.trans hgrown₂, hp₂.ready.good, hp₂.reached,
    hsieved.later hp₁.ready.good hsubject₁ hpattern₁ hgrown₂, hsieved₂⟩

end Parts

/-- To exclude what matches a filter and to extract it divides a type in two: the union of the parts
is the type again, and no member is in both. This is so whichever is done first, by one evaluator or
by two. -/
theorem exclude_extract_parted {ops : List Operation}
    (h : Operation.AllAccepted .typed .initial ops) {subject filter : TypeId}
    (hsubject : subject < (Operation.afterAll .initial ops).size)
    (hfilter : filter < (Operation.afterAll .initial ops).size) (hany : subject ≠ .any) :
    (let excluded := Action.run (exclude subject filter) (start, Operation.afterAll .initial ops)
     ∀ e, e = start ∨ e = excluded.2.1 →
      let extracted := Action.run (extract subject filter) (e, excluded.2.2)
      extracted.2.2.Parted subject excluded.1 extracted.1) ∧
    (let extracted := Action.run (extract subject filter) (start, Operation.afterAll .initial ops)
     ∀ e, e = start ∨ e = extracted.2.1 →
      let excluded := Action.run (exclude subject filter) (e, extracted.2.2)
      excluded.2.2.Parted subject excluded.1 extracted.1) := by
  have hp := (Used.start.operations h).proper.1
  have hg := hp.ready.good
  rw [exclude_eq, extract_eq]
  constructor
  · intro excluded e he extracted
    have hfirst : Action.run (sift false filter subject) _ = excluded := rfl
    have hsecond : Action.run (sift true filter subject) (e, excluded.2.2) = extracted := rfl
    clear_value extracted excluded
    obtain ⟨hgrown, hg', hr', hleft, hright⟩ :=
      sieved_both hg hp.reached hsubject hfilter hany false hfirst he hsecond
    exact parted_sieved hg' hr' (Nat.lt_of_lt_of_le hsubject hgrown.size) hleft hright
  · intro extracted e he excluded
    have hfirst : Action.run (sift true filter subject) _ = extracted := rfl
    have hsecond : Action.run (sift false filter subject) (e, extracted.2.2) = excluded := rfl
    clear_value excluded extracted
    obtain ⟨hgrown, hg', hr', hright, hleft⟩ :=
      sieved_both hg hp.reached hsubject hfilter hany true hfirst he hsecond
    exact parted_sieved hg' hr' (Nat.lt_of_lt_of_le hsubject hgrown.size) hleft hright

/-- A union of `string`, `null`, endless lists and arrays of the parameter that filters use, and a
filter for `null` and objects with something next to them. -/
def mixedUnion : List Operation :=
  [.build .reserve, .build (.defineObject 12 { fields := [{ name := "next", type := 12 }] }),
    .build (.param subjectName), .build (.array 13), .build (.union [.string, .null, 12, 14]),
    .build (.infer "X"), .build (.object { fields := [{ name := "next", type := 16 }] }),
    .build (.union [.null, 17])]

theorem exclude_extract_parted_mixedUnion :
    Operation.AllAccepted .typed .initial mixedUnion ∧
      let excluded := Action.run (exclude 15 18) (start, Operation.afterAll .initial mixedUnion)
      let extracted := Action.run (extract 15 18) (excluded.2.1, excluded.2.2)
      extracted.2.2.unionMembers excluded.1 = [.string, 14] ∧
        extracted.2.2.unionMembers extracted.1 = [.null, 12] ∧
        extracted.2.2.Parted 15 excluded.1 extracted.1 := by
  have haccepted : Operation.AllAccepted .typed .initial mixedUnion :=
    Operation.allAccepted_of_builds (by decide +kernel)
  refine ⟨haccepted, by decide +kernel, by decide +kernel, ?_⟩
  exact (exclude_extract_parted haccepted (by decide +kernel) (by decide +kernel) (by decide)).1 _
    (.inr rfl)

end Evaluator

end TypeCalculus
