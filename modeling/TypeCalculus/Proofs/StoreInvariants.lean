import TypeCalculus.Proofs.Operations

namespace TypeCalculus

/-- A property of stores, and the types that may be used while it is to be kept. -/
structure StoreInvariant where
  Good : Store → Prop
  Fit : Store → TypeId → Prop
  later {st st' : Store} {t : TypeId} : st.size ≤ st'.size → Fit st t → Fit st' t
  child {st : Store} {t c : TypeId} : Good st → Fit st t → c ∈ st.mentions t → Fit st c
  intrinsic {st : Store} {t : TypeId} : Good st → t.isIntrinsic = true → Fit st t
  part {st : Store} (id : ConditionalId) : Good st → Fit st (st.conditional id).pattern ∧
    Fit st (st.conditional id).yes ∧ Fit st (st.conditional id).no
  build {st : Store} {f : Form} : Good st → (∀ c ∈ f.mentions, Fit st c) →
    Good (f.build.run st).2 ∧ Fit (f.build.run st).2 (f.build.run st).1
  conditional {st : Store} {c : Conditional} : Good st → Fit st c.pattern → Fit st c.yes →
    Fit st c.no → Good ((Store.internConditional c).run st).2
  mapping {st : Store} (m : Mapping) : Good st → Good ((Store.internMapping m).run st).2
  reserve {st : Store} : Good st →
    Good (Store.reserve.run st).2 ∧ Fit (Store.reserve.run st).2 st.size
  /-- A placeholder may be given the body of any type. -/
  fill {st : Store} {t : TypeId} (a : TypeId) : Good st → st.cells[t]? = some (.reserved none) →
    Good (st.filled t ((st.lookup a).getD (.intrinsic .never)))
  define {st : Store} {shape : Shape} (t : TypeId) : Good st → (∀ c ∈ shape.types, Fit st c) →
    Good ((Store.defineObject t shape).run st).2

namespace StoreInvariant

structure Evolves (I : StoreInvariant) (st st' : Store) : Prop where
  grown : st.Extends st'
  good : I.Good st → I.Good st'

variable {I : StoreInvariant} {st : Store}

instance : Evolution I.Evolves where
  refl st := ⟨.refl st, id⟩
  trans h h' := ⟨h.grown.trans h'.grown, fun hg => h'.good (h.good hg)⟩

theorem leads_build (I : StoreInvariant) {st : Store} {f : Form} (hg : I.Good st)
    (hc : ∀ c ∈ f.mentions, I.Fit st c) : Leads I.Evolves f.build st fun t st' => I.Fit st' t := by
  have hbuild := I.build hg hc
  exact ⟨⟨(f.evolves_build st).grown, fun _ => hbuild.1⟩, hbuild.2⟩

def rules (I : StoreInvariant) : WalkRules where
  toBuildRules := .ofLeads I.Good I.Fit I.Evolves inferInstance (fun h => h.grown)
    (fun h => h.good) (fun _ h ht => I.later h.grown.size ht) I.child I.intrinsic I.leads_build
  Open := True
  Firm _ _ := False
  firm h := h
  ahead _ h := h
  closed h := h.elim
  opens _ _ := trivial
  unreserved _ _ h := h.elim
  reserve {st} _ hg := ⟨⟨Store.extends_reserve st, fun _ => (I.reserve hg).1⟩, (I.reserve hg).2⟩
  fill h hg ht hc _ := ⟨h.grown.filled hc ht, fun _ => I.fill _ hg hc⟩
  filled _ h := I.later (Nat.le_of_eq (Store.filled_size ..).symm) h
  part id _ := I.part id

def operators (I : StoreInvariant) : OperatorRules where
  toBuildRules := I.rules.toBuildRules
  Usable _ _ := True
  Works := Evaluator.Upholds I.rules
  Ready := Evaluator.Ready I.rules
  progress := inferInstance
  usable _ _ _ := trivial
  conditional {st c} hg hp hy hn :=
    ⟨⟨Store.extends_internConditional c st, fun _ => I.conditional hg hp hy hn⟩, trivial⟩
  mapping {st m} _ _ := ⟨⟨Store.extends_internMapping m st, I.mapping m⟩, trivial⟩
  replaced hg hb ht := (Substitution.runs_applyOnce (r := I.rules) (.ofBindings hg hb) ht).leads
  ready hs h := h.ready hs
  sound hs := hs.good
  evolves _ h := h.store
  lift _ h := .lift h
  matched {s _ _} hs ht hp := by
    have h := (runs_matchPattern (r := I.rules.toBuildRules) hs.good ht hp s.1.limits).leads
    exact leads_get (leads_lift (.lift h.1) h.2)
  applied {_ operator _} hs _ ht := Evaluator.leads_operator (r := I.rules) trivial hs operator ht

/-- Whatever is asked of an evaluator keeps the property. -/
theorem upholds_call {s : Evaluator.State} (hs : Evaluator.Ready I.rules s) (call : Evaluator.Call)
    (hc : ∀ t ∈ call.operands, I.Fit s.2 t) :
    Leads (Evaluator.Upholds I.rules) call.act s fun a s' => I.Fit s'.2 a :=
  call.yields (r := I.operators) hs ⟨hc, fun _ _ => trivial, fun _ _ _ _ h => h.elim⟩

def Allows (I : StoreInvariant) (st : Store) : Operation → Prop
  | .intern _ | .define _ _ => False
  | .build c => ∀ t ∈ c.operands, I.Fit st t
  | .bind bindings _ candidate _ => bindings.AreOf I.Fit st ∧ I.Fit st candidate
  | .matching subject pattern _ => I.Fit st subject ∧ I.Fit st pattern
  | .substitute s t => Substitution.Ready I.rules (s, st) ∧ I.Fit st t
  | .evaluate e call => Evaluator.Ready I.rules (e, st) ∧ ∀ t ∈ call.operands, I.Fit st t
  | .render _ => True

theorem good_build (hg : I.Good st) (c : Construction) (hc : ∀ t ∈ c.operands, I.Fit st t) :
    I.Good (c.after st) := by
  cases c with
  | literal value => exact (I.build (f := .literal value) hg hc).1
  | infer name => exact (I.build (f := .infer name) hg hc).1
  | param name => exact (I.build (f := .param name) hg hc).1
  | array element => exact (I.build (f := .array element) hg hc).1
  | tuple elements => exact (I.build (f := .tuple elements) hg hc).1
  | object shape =>
    show I.Good ((Store.checkedObject shape).run st).2
    unfold Store.checkedObject
    split
    · exact hg
    · exact (I.build (f := .object shape) hg hc).1
  | function signature => exact (I.build (f := .function signature) hg hc).1
  | constructor params result => exact (I.build (f := .constructor { params, result }) hg hc).1
  | wrapper kind args =>
    show I.Good ((Store.checkedWrapper kind args).run st).2
    unfold Store.checkedWrapper
    split
    · exact hg
    · exact (I.build (f := .wrapper kind args) hg hc).1
  | union types => exact (I.build (f := .union types) hg hc).1
  | intersection types => exact (I.build (f := .intersection types) hg hc).1
  | conditional c =>
    simp only [Construction.operands, List.mem_cons, List.not_mem_nil, or_false, forall_eq_or_imp,
      forall_eq] at hc
    exact I.conditional hg hc.1 hc.2.1 hc.2.2
  | mapping m => exact I.mapping m hg
  | reserve => exact (I.reserve hg).1
  | defineObject t shape => exact I.define t hg fun c h => hc c (List.mem_cons_of_mem t h)

/-- So does every operation that is allowed. -/
theorem good_after (hg : I.Good st) (op : Operation) (h : I.Allows st op) :
    I.Good (op.after st) := by
  cases op with
  | intern _ => cases h
  | define _ _ => cases h
  | build c => exact good_build hg c h
  | bind bindings name candidate variance =>
    have hbind := Bindings.runs_bind (r := I.rules.toBuildRules) hg h.1 h.2 name variance
    exact hbind.leads.1.good hg
  | matching subject pattern limits =>
    have hmatch := runs_matchPattern (r := I.rules.toBuildRules) hg h.1 h.2 limits
    exact hmatch.leads.1.good hg
  | substitute s t => exact (Substitution.runs_apply h.1 h.2).leads.1.store.good hg
  | evaluate e call => exact (upholds_call h.1 call h.2).1.store.good hg
  | render _ => exact hg

end StoreInvariant

end TypeCalculus
