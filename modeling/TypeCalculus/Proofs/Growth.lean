import TypeCalculus.Proofs.OperatorRules

namespace TypeCalculus

open Store (Later Made)

/-- What can be built. -/
inductive Construction
  | literal (value : Literal)
  | infer (name : String)
  | param (name : String)
  | array (element : TypeId)
  | tuple (elements : List Slot)
  | object (shape : Shape)
  | function (signature : Signature)
  | constructor (params : List Slot) (result : TypeId)
  | wrapper (kind : Wrapper) (args : List TypeId)
  | union (types : List TypeId)
  | intersection (types : List TypeId)
  | conditional (conditional : Conditional)
  | mapping (mapping : Mapping)
  | reserve
  | defineObject (t : TypeId) (shape : Shape)

namespace Construction

def operands : Construction → List TypeId
  | .literal _ | .infer _ | .param _ | .mapping _ | .reserve => []
  | .array element => [element]
  | .tuple elements => elements.map Slot.type
  | .object shape => shape.types
  | .function signature => (Form.function signature).mentions
  | .constructor params result => (Form.constructor { params, result }).mentions
  | .wrapper _ args => args
  | .union types | .intersection types => types
  | .conditional c => [c.pattern, c.yes, c.no]
  | .defineObject t shape => t :: shape.types

def after (st : Store) : Construction → Store
  | .literal value => ((Store.mkLiteral value).run st).2
  | .infer name => ((Store.mkInfer name).run st).2
  | .param name => ((Store.mkParam name).run st).2
  | .array element => ((Store.mkArray element).run st).2
  | .tuple elements => ((Store.mkTuple elements).run st).2
  | .object shape => ((Store.checkedObject shape).run st).2
  | .function signature => ((Store.mkFunction signature).run st).2
  | .constructor params result => ((Store.mkConstructor params result).run st).2
  | .wrapper kind args => ((Store.checkedWrapper kind args).run st).2
  | .union types => ((Store.mkUnion types).run st).2
  | .intersection types => ((Store.mkIntersection types).run st).2
  | .conditional c => ((Store.internConditional c).run st).2
  | .mapping m => ((Store.internMapping m).run st).2
  | .reserve => (Store.reserve.run st).2
  | .defineObject t shape => ((Store.defineObject t shape).run st).2

def afterAll (st : Store) (cs : List Construction) : Store := cs.foldl after st

def allowed (st : Store) : List Construction → Bool
  | [] => true
  | c :: cs => c.operands.all (· < st.size) && allowed (c.after st) cs

end Construction

namespace Evaluator

def validTypes : OperatorRules where
  toBuildRules := .ofKind Store.kind_valid fun _ h => Store.lt_size_of_form h
  Usable _ _ := True
  Works := Keeps Valid
  Ready := Held Valid
  progress := inferInstance
  usable _ _ _ := trivial
  conditional hw hp hy hn :=
    (Store.leads_internConditional hw ⟨hp, hy, hn⟩).mono fun _ _ _ _ => trivial
  mapping hw _ := (Store.leads_internMapping hw _).mono fun _ _ _ _ => trivial
  replaced hw hb ht :=
    Substitution.leads_applyOnce Store.kind_valid hw ht (fun _ _ _ h _ => h) rfl rfl
    hb nofun fun _ hc => hw.lt_size_of_reaches ht hc.reaches
  ready hs h := h.held hs
  sound hs := hs.sound
  evolves _ h := h.later
  lift _ h := Keeps.store kind_Valid h
  matched hs ht hp := leads_matches (Keeps.store kind_Valid) (.same Store.kind_valid) hs.sound ht hp
  applied {_ operator _} hs _ ht := by
    cases operator with
    | conditional id => exact safe_applyConditional hs id ht
    | mapping id => exact safe_applyMapping hs id ht

/-- A call that is given types of the store adds types of the store. -/
theorem Call.safe {s : State} (hs : Held Valid s) (call : Call)
    (hc : ∀ t ∈ call.operands, t < s.2.size) : Safe call.act s :=
  call.yields (r := validTypes) hs ⟨hc, fun _ _ => trivial, fun _ _ _ _ h => h.elim⟩

def Known (e : Evaluator) (st : Store) : Prop :=
  ∀ task progress t, e.memo.get? task = some progress → progress.type? = some t → t < st.size

theorem known_start (limits : Limits) (st : Store) : (start limits).Known st := nofun

end Evaluator

namespace Store

/-- Stores that users can come to have. -/
inductive Grown : Store → Prop
  | initial : Grown .initial
  | built {st : Store} (h : Grown st) (c : Construction) (hc : ∀ t ∈ c.operands, t < st.size) :
    Grown (c.after st)
  | matched {st : Store} (h : Grown st) {subject pattern : TypeId} (hs : subject < st.size)
    (hp : pattern < st.size) (limits : Limits) :
    Grown ((matchPattern subject pattern limits).run st).2
  | evaluated {st : Store} {e : Evaluator} (h : Grown st) (he : e.Known st) (call : Evaluator.Call)
    (hc : ∀ t ∈ call.operands, t < st.size) : Grown ((call.act.run e).run st).2

theorem lookup_initial {t : TypeId} {node : Node} (h : initial.lookup t = some node) :
    ∃ kind, node = .intrinsic kind := by
  obtain ⟨cell, hc, hn⟩ := Option.bind_eq_some_iff.mp h
  simp only [initial, List.getElem?_map, Option.map_eq_some_iff] at hc
  obtain ⟨kind, _, rfl⟩ := hc
  exact ⟨kind, (Option.some.inj hn).symm⟩

theorem wellFormed_initial : initial.WellFormed where
  indexed := indexed_initial
  founded := Reached.initial.founded
  sound t := by
    cases hl : initial.lookup t with
    | none => exact sound_of_lookup hl
    | some node =>
      obtain ⟨kind, rfl⟩ := lookup_initial hl
      have hf : initial.form? t = some (.intrinsic kind) := form_of_lookup hl
      have hm : initial.mentions t = [] := mentions_of_form hf
      have hr : initial.isReserved t = false := by
        simp only [isReserved, initial, List.getElem?_map]
        cases Intrinsic.all[t]? <;> rfl
      refine ⟨fun h => ?_, by simp [hm], by simp [hm], by simp [hr], by simp [hf]⟩
      cases hl.symm.trans h
      trivial
  conditional := nofun

/-- Making an object of a placeholder, or failing to. -/
theorem defineObject_eq (t : TypeId) (shape : Shape) (st : Store) :
    (Store.defineObject t shape).run st = (match checkFields shape.fields with
      | .error e => pure (.error e)
      | .ok () => internShape shape >>= fun id => define t (.object id) :
        StoreM (Except StoreError Unit)).run st :=
  rfl

theorem WellFormed.defineObject {st : Store} (hw : st.WellFormed) {t : TypeId} {shape : Shape}
    (hc : ∀ c ∈ shape.types, c < st.size) :
    ((Store.defineObject t shape).run st).2.WellFormed := by
  rw [defineObject_eq]
  split
  · exact hw
  · show ((define t (.object ((internShape shape).run st).1)).run
      ((internShape shape).run st).2).2.WellFormed
    obtain ⟨hlater, hid⟩ := leads_internShape hw shape
    change Later st ((internShape shape).run st).2 at hlater
    change ((internShape shape).run st).2.shapes.get? ((internShape shape).run st).1 =
      some shape at hid
    generalize (internShape shape).run st = r at hlater hid ⊢
    obtain ⟨id, st'⟩ := r
    have hw' := hlater.sound hw
    rcases run_define t (.object id) st' with ⟨hcell, h⟩ | ⟨_, _, h⟩
    · rw [h]
      refine hw'.filled hcell rfl (by simp [Placed, hid]) fun c hm => ?_
      have hm : c ∈ shape.types := by simpa [form, Store.shape, hid, Form.mentions] using hm
      exact Nat.lt_of_lt_of_le (hc c hm) hlater.grown.size
    · rw [h]
      exact hw'

/-- Building types out of types that are there keeps a store well formed. -/
theorem WellFormed.construction {st : Store} (hw : st.WellFormed) (c : Construction)
    (hc : ∀ t ∈ c.operands, t < st.size) : (c.after st).WellFormed := by
  cases c with
  | literal value => exact (leads_mkLiteral hw value).1.sound hw
  | infer name => exact (leads_mkInfer hw name).1.sound hw
  | param name => exact (leads_mkParam hw name).1.sound hw
  | array element => exact (leads_mkArray hw (hc element (List.mem_singleton.mpr rfl))).1.sound hw
  | tuple elements => exact (leads_mkTuple hw hc).1.sound hw
  | object shape =>
    have hleads : Leads Later (checkedObject shape) st fun _ _ => True := by
      unfold checkedObject
      split
      · exact Leads.pure trivial
      · exact (leads_mkObject hw hc).bind fun _ _ _ _ => Leads.pure trivial
    exact hleads.1.sound hw
  | function signature => exact (leads_mkFunction hw hc).1.sound hw
  | constructor params result => exact (leads_mkConstructor hw hc).1.sound hw
  | wrapper kind args =>
    have hleads : Leads Later (checkedWrapper kind args) st fun _ _ => True := by
      unfold checkedWrapper
      split
      · exact Leads.pure trivial
      · exact (leads_mkWrapper hw hc).bind fun _ _ _ _ => Leads.pure trivial
    exact hleads.1.sound hw
  | union types => exact (leads_mkUnion hw hc).1.sound hw
  | intersection types => exact (leads_mkIntersection hw hc).1.sound hw
  | conditional c =>
    simp only [Construction.operands, List.mem_cons, List.not_mem_nil, or_false, forall_eq_or_imp,
      forall_eq] at hc
    exact (leads_internConditional hw hc).1.sound hw
  | mapping m => exact (leads_internMapping hw m).1.sound hw
  | reserve => exact (leads_reserve hw).1.sound hw
  | defineObject t shape => exact hw.defineObject fun c h => hc c (List.mem_cons_of_mem _ h)

/-- Every store that users can come to have is well formed. -/
theorem Grown.wellFormed {st : Store} (h : Grown st) : st.WellFormed := by
  induction h with
  | initial => exact wellFormed_initial
  | built _ c hc ih => exact ih.construction c hc
  | @matched st _ subject pattern hs hp limits ih =>
    exact (leads_matchPattern (.same kind_valid) ih hs hp limits).1.sound ih
  | @evaluated st e _ he call hc ih =>
    have hs : Evaluator.Held Evaluator.Valid (e, st) := ⟨ih, fun hm ht => he _ _ _ hm ht⟩
    exact ((call.safe hs hc).1.held hs).sound

theorem Grown.builtAll {st : Store} (h : Grown st) {cs : List Construction}
    (hc : Construction.allowed st cs = true) : Grown (Construction.afterAll st cs) := by
  induction cs generalizing st with
  | nil => exact h
  | cons c cs ih =>
    simp only [Construction.allowed, Bool.and_eq_true, List.all_eq_true, decide_eq_true_eq] at hc
    exact ih (h.built c hc.1) hc.2

end Store

end TypeCalculus
