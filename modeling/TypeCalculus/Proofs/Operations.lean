import TypeCalculus.Proofs.OperatorSteps

namespace TypeCalculus

/-- Besides building types, users can intern nodes and define placeholders as they like, bind,
match, substitute and evaluate, with substitutions and evaluators in whatever state. To distribute a
function over a union is to do what the function does and to build a union. Reading, of which
rendering is a part, is a function of the store. -/
inductive Operation
  | intern (node : Node)
  | define (t : TypeId) (body : Node)
  | build (c : Construction)
  | bind (bindings : Bindings) (name : String) (candidate : TypeId) (variance : Variance)
  | matching (subject pattern : TypeId) (limits : Limits)
  | substitute (s : Substitution) (t : TypeId)
  | evaluate (e : Evaluator) (call : Evaluator.Call)
  | render (t : TypeId)

structure Substitution.Known (s : Substitution) (st : Store) : Prop where
  infers : s.infers.AreOf (fun st t => t < st.size) st
  params : s.params.AreOf (fun st t => t < st.size) st
  memo {t a : TypeId} : s.memo.get? t = some a → a < st.size

def Construction.conditional? : Construction → Option ConditionalId
  | .mapping m =>
    match m.value with
    | .conditional id => some id
    | _ => none
  | _ => none

def refusal {ε α : Type} : Except ε α → Option ε
  | .error e => some e
  | .ok _ => none

namespace Operation

def after (st : Store) : Operation → Store
  | .intern node => ((Store.intern node).run st).2
  | .define t body => ((Store.define t body).run st).2
  | .build c => c.after st
  | .bind bindings name candidate variance => ((bindings.bind name candidate variance).run st).2
  | .matching subject pattern limits => ((matchPattern subject pattern limits).run st).2
  | .substitute s t => (((Substitution.apply t).run s).run st).2
  | .evaluate e call => ((call.act.run e).run st).2
  | .render _ => st

def afterAll (st : Store) (ops : List Operation) : Store := ops.foldl after st

def error? (st : Store) : Operation → Option StoreError
  | .define t body => refusal ((Store.define t body).run st).1
  | .build (.object shape) => refusal ((Store.checkedObject shape).run st).1
  | .build (.wrapper kind args) => refusal ((Store.checkedWrapper kind args).run st).1
  | .build (.defineObject t shape) => refusal ((Store.defineObject t shape).run st).1
  | _ => none

def target? : Operation → Option TypeId
  | .define t _ | .build (.defineObject t _) => some t
  | _ => none

def Given (st : Store) : Operation → Prop
  | .intern node | .define _ node => st.Placed node ∧ ∀ c ∈ st.children node, c < st.size
  | .build c =>
    (∀ t ∈ c.operands, t < st.size) ∧ ∀ id, c.conditional? = some id → st.Has (.conditional id)
  | .bind bindings _ candidate _ =>
    bindings.AreOf (fun st t => t < st.size) st ∧ candidate < st.size
  | .matching subject pattern _ => subject < st.size ∧ pattern < st.size
  | .substitute s t => s.Known st ∧ t < st.size
  | .evaluate e call => e.Known st ∧ (∀ t ∈ call.operands, t < st.size) ∧
    ∀ operator, call.operator? = some operator → st.Has operator
  | .render t => t < st.size

def Typed : Operation → Prop
  | .intern _ | .define _ _ => False
  | .evaluate _ call => call.Typed
  | _ => True

structure Accepted (d : Discipline) (op : Operation) (st : Store) : Prop where
  given : d ≠ .free → op.Given st
  typed : d = .typed → op.Typed

def AllAccepted (d : Discipline) (st : Store) : List Operation → Prop
  | [] => True
  | op :: ops => op.Accepted d st ∧ AllAccepted d (op.after st) ops

/-- What every acceptable operation preserves is preserved by all of them. -/
theorem AllAccepted.preserves {d : Discipline} {st : Store} {ops : List Operation}
    {P : Store → Prop} (h : AllAccepted d st ops) (hp : P st)
    (step : ∀ {st : Store} (op : Operation), P st → op.Accepted d st → P (op.after st)) :
    P (afterAll st ops) := by
  induction ops generalizing st with
  | nil => exact hp
  | cons op ops ih => exact ih h.2 (step op hp h.1)

def builds (st : Store) : List Operation → Bool
  | [] => true
  | .build c :: ops =>
    c.operands.all (· < st.size) && c.conditional?.isNone && builds (c.after st) ops
  | _ :: _ => false

/-- What is only built may be built under every discipline. -/
theorem allAccepted_of_builds {d : Discipline} {st : Store} {ops : List Operation}
    (h : builds st ops = true) : AllAccepted d st ops := by
  induction ops generalizing st with
  | nil => trivial
  | cons op ops ih =>
    cases op with
    | build c =>
      simp only [builds, Bool.and_eq_true, List.all_eq_true, decide_eq_true_eq,
        Option.isNone_iff_eq_none] at h
      obtain ⟨⟨hoperands, hnone⟩, hrest⟩ := h
      refine ⟨⟨fun _ => ⟨hoperands, fun id hid => ?_⟩, fun _ => trivial⟩, ih hrest⟩
      cases hnone.symm.trans hid
    | _ => cases h

/-- What can come out of an operation: an extension, or one in which the target has a body. -/
inductive Outcome (d : Discipline) (op : Operation) (st : Store) : Store → Prop
  | evolved {st' : Store} (h : d.Evolves st st') (hc : op.error? st ≠ none → st'.cells = st.cells) :
    Outcome d op st st'
  | defined {st' : Store} {t : TypeId} {body : Node} (h : d.Evolves st st')
    (hcells : st'.cells = st.cells) (ht : op.target? = some t) (he : op.error? st = none)
    (hc : st'.cells[t]? = some (.reserved none))
    (hp : d ≠ .free → st'.Placed body ∧ ∀ c ∈ st'.children body, c < st'.size)
    (hk : d = .typed → body.isContainer = true ∧ st'.Regular (st'.form body)) :
    Outcome d op st (st'.filled t body)

end Operation

namespace Store

theorem nodup_of_firstRepeat {seen names : List String} (h : firstRepeat seen names = none) :
    names.Nodup ∧ ∀ name ∈ names, name ∉ seen := by
  induction names generalizing seen with
  | nil => simp
  | cons name rest ih =>
    unfold firstRepeat at h
    split at h
    · cases h
    · rename_i hn
      obtain ⟨hrest, hseen⟩ := ih h
      refine ⟨List.nodup_cons.mpr ⟨fun hm => ?_, hrest⟩, fun other hm => ?_⟩
      · exact hseen name hm (List.mem_cons_self ..)
      · rcases List.mem_cons.mp hm with rfl | hm
        · exact hn
        · exact fun hs => hseen other hm (List.mem_cons_of_mem _ hs)

/-- A shape that passes the check names no field twice. -/
theorem distinct_of_checkFields {shape : Shape} (h : checkFields shape.fields = .ok ()) :
    shape.Distinct := by
  unfold checkFields at h
  split at h
  · cases h
  · rename_i hn
    exact (nodup_of_firstRepeat hn).1

end Store

namespace Operation

variable {d : Discipline} {st : Store}

/-- An operation that is refused changes nothing, one that defines apart. -/
theorem after_of_error {op : Operation} (hn : op.target? = none) (he : op.error? st ≠ none) :
    op.after st = st := by
  cases op with
  | build c =>
    cases c with
    | object shape =>
      show ((Store.checkedObject shape).run st).2 = st
      change refusal ((Store.checkedObject shape).run st).1 ≠ none at he
      unfold Store.checkedObject at he ⊢
      split
      · rfl
      · rename_i hok
        rw [hok] at he
        exact absurd rfl he
    | wrapper kind args =>
      show ((Store.checkedWrapper kind args).run st).2 = st
      change refusal ((Store.checkedWrapper kind args).run st).1 ≠ none at he
      unfold Store.checkedWrapper at he ⊢
      split
      · rfl
      · rename_i hok
        rw [if_neg hok] at he
        exact absurd rfl he
    | defineObject t shape => cases hn
    | _ => exact absurd rfl he
  | define t body => cases hn
  | _ => exact absurd rfl he

theorem evolves_intern {node : Node} (h : (intern node).Accepted d st) :
    d.Evolves st ((Store.intern node).run st).2 := by
  by_cases hn : ∀ kind, node ≠ .intrinsic kind
  · apply Discipline.evolves_intern hn
    · exact fun hf => (h.given hf).1
    · exact fun hf => (h.given hf).2
    · exact fun ht => (h.typed ht).elim
  · simp only [ne_eq, not_forall, not_not] at hn
    obtain ⟨kind, rfl⟩ := hn
    exact Evolution.refl st

/-- A definition that comes after the table entries that it needs. -/
theorem outcome_define {op : Operation} {st' : Store} {t : TypeId} {body : Node}
    (h : d.Evolves st st') (hcells : st'.cells = st.cells) (ht : op.target? = some t)
    (he : op.error? st = refusal ((Store.define t body).run st').1)
    (hp : d ≠ .free → st'.Placed body ∧ ∀ c ∈ st'.children body, c < st'.size)
    (hk : d = .typed → body.isContainer = true ∧ st'.Regular (st'.form body)) :
    Outcome d op st ((Store.define t body).run st').2 := by
  rcases Store.run_define t body st' with ⟨hc, hr⟩ | ⟨_, error, hr⟩
  · have he : op.error? st = none := by
      rw [he, hr]
      rfl
    rw [hr]
    exact .defined h hcells ht he hc hp hk
  · rw [hr]
    exact .evolved h fun _ => hcells

theorem outcome_defineObject {t : TypeId} {shape : Shape} (hg : d.Good st)
    (h : (build (.defineObject t shape)).Accepted d st) :
    Outcome d (build (.defineObject t shape)) st ((Store.defineObject t shape).run st).2 := by
  cases hok : Store.checkFields shape.fields with
  | error e =>
    have hr : (Store.defineObject t shape).run st = (.error e, st) := by
      rw [Store.defineObject_eq, hok]
      rfl
    rw [hr]
    exact .evolved (Evolution.refl st) fun _ => rfl
  | ok =>
    have hr : (Store.defineObject t shape).run st =
        (Store.define t (.object ((Store.internShape shape).run st).1)).run
          ((Store.internShape shape).run st).2 := by
      rw [Store.defineObject_eq, hok]
      rfl
    have hdistinct := Store.distinct_of_checkFields hok
    obtain ⟨hev, hid⟩ := (Discipline.runs_internShape fun _ => hdistinct :
      Runs d.Again d.Evolves (Store.internShape shape) st _).leads
    change d.Evolves st ((Store.internShape shape).run st).2 at hev
    have hid (hf : d ≠ .free) : ((Store.internShape shape).run st).2.shapes.get?
        ((Store.internShape shape).run st).1 = some shape := hid ((hev.good hg).indexed hf)
    rw [hr]
    apply outcome_define hev rfl rfl
    · show refusal ((Store.defineObject t shape).run st).1 = _
      rw [hr]
    · intro hf
      have hid := hid hf
      refine ⟨by simp [Store.Placed, hid], fun c hc => ?_⟩
      have hc : c ∈ shape.types := by simpa [Store.children, Store.shape, hid, Shape.types] using hc
      exact Nat.lt_of_lt_of_le ((h.given hf).1 c (List.mem_cons_of_mem _ hc)) hev.grown.size
    · intro ht
      refine ⟨rfl, ?_⟩
      rw [Store.form, Store.shape, hid (by simp [ht])]
      exact hdistinct

section Checked

variable (hg : d.Good st)

include hg

theorem evolves_object {shape : Shape} (hc : ∀ t ∈ shape.types, d.Fit st t) :
    Leads d.Evolves (Store.checkedObject shape) st fun _ _ => True := by
  unfold Store.checkedObject
  split
  · exact Leads.pure trivial
  · rename_i hok
    apply (Discipline.runs_mkObject hg hc fun _ => Store.distinct_of_checkFields hok).leads.bind
    intro _ _ _ _
    exact Leads.pure trivial

theorem evolves_wrapper {kind : Wrapper} {args : List TypeId} (hc : ∀ t ∈ args, d.Fit st t) :
    Leads d.Evolves (Store.checkedWrapper kind args) st fun _ _ => True := by
  unfold Store.checkedWrapper
  split
  · exact Leads.pure trivial
  · rename_i hok
    have htakes : kind.Takes args.length := by
      simp only [Bool.or_eq_true, decide_eq_true_eq, not_or, Nat.not_lt] at hok
      exact hok
    apply (Discipline.runs_mkWrapper hg hc fun _ => htakes).leads.bind
    intro _ _ _ _
    exact Leads.pure trivial

end Checked

section Evolves

variable (hd : d ≠ .solid)

include hd

theorem fit_of_lt {t : TypeId} (h : d ≠ .free → t < st.size) : d.Fit st t :=
  ⟨h, fun hs => absurd hs hd⟩

theorem areOf_fit {bindings : Bindings}
    (h : d ≠ .free → bindings.AreOf (fun st t => t < st.size) st) : bindings.AreOf d.Fit st :=
  fun name t ht => fit_of_lt hd fun hf => h hf name t ht

variable (hg : d.Good st)

include hg

theorem evolves_build {c : Construction} (h : (build c).Accepted d st)
    (hn : (build c).target? = none) : d.Evolves st (c.after st) := by
  have hc : ∀ t ∈ c.operands, d.Fit st t := fun t ht => fit_of_lt hd fun hf => (h.given hf).1 t ht
  cases c with
  | literal value => exact (Discipline.runs_mkLiteral hg value).leads.1
  | infer name => exact (Discipline.runs_mkInfer hg name).leads.1
  | param name => exact (Discipline.runs_mkParam hg name).leads.1
  | array element =>
    exact (Discipline.runs_mkArray hg (hc element (List.mem_singleton.mpr rfl))).leads.1
  | tuple elements => exact (Discipline.runs_mkTuple hg hc).leads.1
  | object shape => exact (evolves_object hg hc).1
  | function signature => exact (Discipline.runs_mkFunction hg hc).leads.1
  | constructor params result => exact (Discipline.runs_mkConstructor hg hc).leads.1
  | wrapper kind args => exact (evolves_wrapper hg hc).1
  | union types => exact (Discipline.runs_mkUnion hg hc).leads.1
  | intersection types => exact (Discipline.runs_mkIntersection hg hc).leads.1
  | conditional c =>
    simp only [Construction.operands, List.mem_cons, List.not_mem_nil, or_false, forall_eq_or_imp,
      forall_eq] at hc
    exact (Discipline.leads_internConditional fun hf =>
      ⟨hc.1.valid hf, hc.2.1.valid hf, hc.2.2.valid hf⟩).1
  | mapping m =>
    apply (Discipline.leads_internMapping fun hf id hm => ?_).1
    apply (h.given hf).2 id
    simp only [Construction.conditional?]
    rw [hm]
  | reserve => exact (Discipline.leads_reserve d st).1
  | defineObject t shape => cases hn

theorem evolves {op : Operation} (h : op.Accepted d st) (hn : op.target? = none) :
    d.Evolves st (op.after st) := by
  cases op with
  | intern node => exact evolves_intern h
  | define t body => cases hn
  | build c => exact evolves_build hd hg h hn
  | bind bindings name candidate variance =>
    exact (Bindings.runs_bind (r := d.rules.toBuildRules) hg (areOf_fit hd fun hf => (h.given hf).1)
      (fit_of_lt hd fun hf => (h.given hf).2) name variance).leads.1
  | matching subject pattern limits =>
    exact (runs_matchPattern (r := d.rules.toBuildRules) hg (fit_of_lt hd fun hf => (h.given hf).1)
      (fit_of_lt hd fun hf => (h.given hf).2) limits).leads.1
  | substitute s t =>
    have hs : Substitution.Ready d.rules (s, st) :=
      ⟨hg, areOf_fit hd fun hf => (h.given hf).1.infers,
        areOf_fit hd fun hf => (h.given hf).1.params,
        fun hm => fit_of_lt hd fun hf => (h.given hf).1.memo hm⟩
    exact (Substitution.runs_apply hs (fit_of_lt hd fun hf => (h.given hf).2)).leads.1.store
  | evaluate e call =>
    have hs : Evaluator.Ready d.rules (e, st) :=
      ⟨hg, fun hm ht => fit_of_lt hd fun hf => (h.given hf).1 _ _ _ hm ht⟩
    have hc : call.Accepted d st :=
      ⟨fun t ht => fit_of_lt hd fun hf => (h.given hf).2.1 t ht,
        fun hf => (h.given hf).2.2, h.typed⟩
    exact ((Evaluator.Call.worked hd hs hc).1.upholds hd hs).store
  | render t => exact Evolution.refl st

/-- An operation extends the store, and then may give a placeholder that its user named a body;
nothing else ever happens to a store. -/
theorem outcome {op : Operation} (h : op.Accepted d st) : Outcome d op st (op.after st) := by
  cases ht : op.target? with
  | none =>
    exact .evolved (evolves hd hg h ht) fun he => congrArg Store.cells (after_of_error ht he)
  | some t =>
    cases op with
    | define u body =>
      apply outcome_define (Evolution.refl st) rfl rfl rfl h.given
      exact fun hd => (h.typed hd).elim
    | build c =>
      cases c with
      | defineObject u shape => exact outcome_defineObject hg h
      | _ => cases ht
    | _ => cases ht

end Evolves

theorem Outcome.good {op : Operation} {st' : Store} (h : Outcome d op st st') (hg : d.Good st) :
    d.Good st' := by
  cases h with
  | evolved h _ => exact h.good hg
  | @defined st' t body h _ _ _ hc hp hk =>
    have hg' := h.good hg
    refine ⟨fun hf => ?_, hg'.linked, fun ht => ?_⟩
    · exact (hg'.anchored hf).filled hc (hp hf).1 (hp hf).2
    · have hf : d ≠ .free := by simp [ht]
      exact (hg'.tidy ht).filled hc (hg'.anchored hf) (hk ht).1 (hk ht).2 (hp hf).2

theorem Outcome.reached {op : Operation} {st' : Store} (h : Outcome d op st st') (hr : st.Reached) :
    st'.Reached := by
  cases h with
  | evolved h _ => exact h.reached hr
  | @defined st' t body h _ _ _ hc _ _ =>
    have hdefine := (h.reached hr).define t body
    rw [Store.run_define_empty hc] at hdefine
    exact hdefine

/-- A discipline that everyone keeps to is kept. -/
theorem good_afterAll (hd : d ≠ .solid) (hg : d.Good st) {ops : List Operation}
    (h : AllAccepted d st ops) : d.Good (afterAll st ops) :=
  h.preserves hg fun _ hg ho => (outcome hd hg ho).good hg

end Operation

namespace Store

/-- Whatever the first store tells, the second one tells too. -/
structure Appends (st st' : Store) : Prop where
  lookup {t : TypeId} {node : Node} : st.lookup t = some node → st'.lookup t = some node
  reserved {t : TypeId} : t < st.size → st'.isReserved t = st.isReserved t
  lists {id : ListId} {members : List TypeId} : st.lists.get? id = some members →
    st'.lists.get? id = some members
  tuples {id : TupleId} {slots : List Slot} : st.tuples.get? id = some slots →
    st'.tuples.get? id = some slots
  shapes {id : ShapeId} {shape : Shape} : st.shapes.get? id = some shape →
    st'.shapes.get? id = some shape
  signatures {id : SignatureId} {signature : Signature} : st.signatures.get? id = some signature →
    st'.signatures.get? id = some signature
  conditionals {id : ConditionalId} {conditional : Conditional} :
    st.conditionals.get? id = some conditional → st'.conditionals.get? id = some conditional
  mappings {id : MappingId} {mapping : Mapping} : st.mappings.get? id = some mapping →
    st'.mappings.get? id = some mapping
  size : st.size ≤ st'.size

variable {st st' : Store}

theorem Extends.appends (h : st.Extends st') : st.Appends st' where
  lookup {t node} hl := by
    rw [h.lookup (lt_size_of_lookup (by simp [hl])), hl]
  reserved := h.isReserved
  lists := h.lists.get?
  tuples := h.tuples.get?
  shapes := h.shapes.get?
  signatures := h.signatures.get?
  conditionals := h.conditionals.get?
  mappings := h.mappings.get?
  size := h.size

theorem Appends.trans {a b c : Store} (h : a.Appends b) (h' : b.Appends c) : a.Appends c where
  lookup hl := h'.lookup (h.lookup hl)
  reserved ht := (h'.reserved (Nat.lt_of_lt_of_le ht h.size)).trans (h.reserved ht)
  lists hl := h'.lists (h.lists hl)
  tuples hl := h'.tuples (h.tuples hl)
  shapes hl := h'.shapes (h.shapes hl)
  signatures hl := h'.signatures (h.signatures hl)
  conditionals hl := h'.conditionals (h.conditionals hl)
  mappings hl := h'.mappings (h.mappings hl)
  size := Nat.le_trans h.size h'.size

theorem interned_iff {t : TypeId} {node : Node} : st.cells[t]? = some (.interned node) ↔
    st.lookup t = some node ∧ st.isReserved t = false := by
  unfold Store.lookup isReserved
  cases st.cells[t]? with
  | none => simp
  | some cell => cases cell <;> simp [Cell.node?]

theorem Appends.interned (h : st.Appends st') {t : TypeId} {node : Node}
    (hc : st.cells[t]? = some (.interned node)) : st'.cells[t]? = some (.interned node) := by
  obtain ⟨hl, hr⟩ := interned_iff.mp hc
  apply interned_iff.mpr
  refine ⟨h.lookup hl, ?_⟩
  rw [h.reserved (lt_size_of_lookup (by simp [hl])), hr]

/-- To give a placeholder a body takes nothing back. -/
theorem Appends.filled {t : TypeId} {body : Node} (h : st.Appends st')
    (hc : st'.cells[t]? = some (.reserved none)) : st.Appends (st'.filled t body) where
  lookup {u node} hl := by
    have hl := h.lookup hl
    have hne : u ≠ t := by
      rintro rfl
      simp [Store.lookup, hc, Cell.node?] at hl
    simpa [Store.lookup, filled_cell_ne hne] using hl
  reserved {u} hu := by rw [filled_isReserved hc, h.reserved hu]
  lists := h.lists
  tuples := h.tuples
  shapes := h.shapes
  signatures := h.signatures
  conditionals := h.conditionals
  mappings := h.mappings
  size := by
    rw [filled_size]
    exact h.size

end Store

namespace Operation

theorem Outcome.appends {d : Discipline} {op : Operation} {st st' : Store}
    (h : Outcome d op st st') : st.Appends st' := by
  cases h with
  | evolved h _ => exact h.grown.appends
  | defined h _ _ _ hc _ _ => exact h.grown.appends.filled hc

theorem accepted_free (op : Operation) (st : Store) : op.Accepted .free st :=
  ⟨fun h => absurd rfl h, fun h => by cases h⟩

theorem outcome_free (op : Operation) (st : Store) : Outcome .free op st (op.after st) :=
  outcome (fun h => by cases h) (Discipline.good_free st) (op.accepted_free st)

/-- Stores are append-only: what is there stays, the one thing that changes in place is an empty
placeholder that the user has defined, and what is refused changes no cell. -/
theorem after_appends (op : Operation) (st : Store) :
    st.Appends (op.after st) ∧
      (∀ t < st.size, (op.after st).cells[t]? ≠ st.cells[t]? →
        st.cells[t]? = some (.reserved none) ∧ op.target? = some t ∧ op.error? st = none) ∧
      (op.error? st ≠ none → (op.after st).cells = st.cells) := by
  have hout := op.outcome_free st
  generalize op.after st = st' at hout ⊢
  refine ⟨hout.appends, ?_⟩
  cases hout with
  | evolved h hc => exact ⟨fun t ht hne => absurd (h.grown.cell ht) hne, hc⟩
  | @defined st' u body h hcells hu he hc _ _ =>
    refine ⟨fun t ht hne => ?_, fun hn => absurd he hn⟩
    by_cases htu : t = u
    · subst htu
      exact ⟨hcells ▸ hc, hu, he⟩
    · rw [Store.filled_cell_ne htu, hcells] at hne
      exact absurd rfl hne

end Operation

theorem Store.tidy_initial : Store.initial.Tidy where
  container {t node} hr _ := by
    have hn : initial.isReserved t = false := by
      simp only [isReserved, initial, List.getElem?_map]
      cases Intrinsic.all[t]? <;> rfl
    rw [hn] at hr
    cases hr
  regular {t f} hf := by
    obtain ⟨node, hn, rfl⟩ := lookup_of_form hf
    obtain ⟨kind, rfl⟩ := lookup_initial hn
    trivial
  shapes h := by cases h

theorem Discipline.good_initial (d : Discipline) : d.Good .initial where
  anchored _ := Store.wellFormed_initial.anchored
  linked _ _ h := by cases h
  tidy _ := Store.tidy_initial

namespace Operation

theorem AllAccepted.good {ops : List Operation} (h : AllAccepted .typed .initial ops) :
    Discipline.Good .typed (afterAll .initial ops) :=
  good_afterAll (fun h => by cases h) (Discipline.good_initial _) h

/-- From the store of intrinsic types on, unions, intersections, objects, wrappers and constructors
are in normal form, as long as users use what they were given and make types by the action for their
kind. -/
theorem tidy_afterAll {ops : List Operation} (h : AllAccepted .typed .initial ops) :
    (afterAll .initial ops).Tidy :=
  h.good.tidy rfl

/-- A binary tree whose type is put into a union and an intersection before it is known to be an
object, and which is then matched, substituted in and evaluated. -/
def growingTree : List Operation :=
  [.build .reserve, .build (.union [12, .undefined]), .build (.intersection [12, .string]),
    .build (.defineObject 12 { fields := [{ name := "left", type := 13 },
      { name := "right", type := 13 }] }),
    .matching 14 13 .matching, .substitute .start 13, .evaluate .start (.exclude 13 .undefined)]

theorem tidy_afterAll_growingTree :
    AllAccepted .typed .initial growingTree ∧ (afterAll .initial growingTree).Tidy := by
  have h : AllAccepted .typed .initial growingTree := by
    refine ⟨⟨fun _ => ?_, fun _ => trivial⟩, ⟨fun _ => ?_, fun _ => trivial⟩,
      ⟨fun _ => ?_, fun _ => trivial⟩,
      ⟨fun _ => ?_, fun _ => trivial⟩, ⟨fun _ => ?_, fun _ => trivial⟩,
      ⟨fun _ => ?_, fun _ => trivial⟩,
      ⟨fun _ => ?_, fun _ => trivial⟩, trivial⟩
    · exact ⟨by decide, fun _ h => by cases h⟩
    · exact ⟨by decide, fun _ h => by cases h⟩
    · exact ⟨by decide, fun _ h => by cases h⟩
    · exact ⟨by decide, fun _ h => by cases h⟩
    · exact ⟨by decide, by decide⟩
    · exact ⟨⟨(fun _ _ h => by cases h), (fun _ _ h => by cases h), fun h => by cases h⟩,
        by decide +kernel⟩
    · exact ⟨(fun _ _ _ h => by cases h), by decide +kernel, fun _ h => by cases h⟩
  exact ⟨h, tidy_afterAll h⟩

end Operation

namespace Evaluator

theorem ready_free (s : State) : Ready (Discipline.rules .free) s :=
  ⟨Discipline.good_free s.2, fun _ _ => Discipline.fit_free ..⟩

end Evaluator

end TypeCalculus
