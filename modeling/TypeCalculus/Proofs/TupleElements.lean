import TypeCalculus.Proofs.Containers
import TypeCalculus.Proofs.SignatureLaws
import TypeCalculus.Proofs.UnionAlgebra
import TypeCalculus.Proofs.Variadic

namespace TypeCalculus

namespace Store

variable {st st' : Store}

theorem lookup_array {t element : TypeId} :
    st.form? t = some (.array element) ↔ st.lookup t = some (.array element) := by
  constructor
  · intro h
    obtain ⟨node, hl, hf⟩ := lookup_of_form h
    cases node <;> simp only [form, reduceCtorEq, Form.array.injEq] at hf
    exact hf ▸ hl
  · exact form_of_lookup

theorem lookup_tuple {t : TypeId} {slots : List Slot} (h : st.form? t = some (.tuple slots)) :
    ∃ id, st.lookup t = some (.tuple id) ∧ st.slots id = slots := by
  obtain ⟨node, hl, hf⟩ := lookup_of_form h
  cases node <;> cases hf
  exact ⟨_, hl, rfl⟩

theorem isContainer_tuple {t : TypeId} {slots : List Slot} (h : st.form? t = some (.tuple slots)) :
    st.isContainer t = true := by
  obtain ⟨id, hl, _⟩ := lookup_tuple h
  rw [isContainer, hl]
  rfl

def Spreads (st : Store) (slot : Slot) (t : TypeId) : Prop :=
  slot.rest = false ∧ slot.type = t ∨ slot.rest = true ∧ st.form? slot.type = some (.array t)

section Spreads

variable {slot : Slot} {t : TypeId} (h : st.Spreads slot t)

include h

/-- A slot adds its own type, or the elements of the array that it holds. -/
theorem Spreads.element : st.Element slot t := by
  rcases h with ⟨hfixed, rfl⟩ | ⟨hrest, harray⟩
  · exact element_of_fixed st hfixed
  · exact element_of_array hrest harray

theorem Spreads.later (hs : st.Extends st') : st'.Spreads slot t := by
  rcases h with h | ⟨hrest, harray⟩
  · exact .inl h
  · have hlater := (hs.lookup (lt_size_of_form harray)).trans (lookup_array.mp harray)
    exact .inr ⟨hrest, lookup_array.mpr hlater⟩

end Spreads

structure ClosedTuple (st : Store) (t : TypeId) (slots : List Slot)
    (elements : List TypeId) : Prop where
  form : st.form? t = some (.tuple slots)
  free : st.InferFree t
  spread : List.Forall₂ st.Spreads slots elements

theorem ClosedTuple.later {t : TypeId} {slots : List Slot} {elements : List TypeId}
    (h : st.ClosedTuple t slots elements) (hw : st.WellFormed) (hs : st.Extends st') :
    st'.ClosedTuple t slots elements where
  form := (hw.form_extends hs (lt_size_of_form h.form)).trans h.form
  free := (hw.inferFree_extends hs (lt_size_of_form h.form)).mpr h.free
  spread := h.spread.imp fun _ _ hx => hx.later hs

section ClosedTuple

variable {t : TypeId} {slots : List Slot} {elements : List TypeId}
  (h : st.ClosedTuple t slots elements)
  (ha : st.Anchored)

include h ha

theorem ClosedTuple.slot {slot : Slot} (hm : slot ∈ slots) :
    slot.type < st.size ∧ st.InferFree slot.type := by
  have hmention : slot.type ∈ st.mentions t := by
    rw [mentions_of_form h.form]
    exact List.mem_map_of_mem hm
  exact ⟨ha.inside hmention, h.free.child hmention⟩

theorem ClosedTuple.element {x : TypeId} (hx : x ∈ elements) : x < st.size ∧ st.InferFree x := by
  obtain ⟨slot, hm, hspread⟩ := mem_right_of_forall₂ h.spread hx
  rcases hspread with ⟨_, rfl⟩ | ⟨_, harray⟩
  · exact h.slot ha hm
  · have hmention : x ∈ st.mentions slot.type := by
      rw [mentions_of_form harray]
      exact List.mem_singleton.mpr rfl
    exact ⟨ha.inside hmention, (h.slot ha hm).2.child hmention⟩

end ClosedTuple

end Store

namespace Bindings

variable (bindings : Bindings) (name : String) (st : Store)

theorem evolves_bind (candidate : TypeId) :
    Discipline.Evolves .free st ((bindings.bind name candidate .covariant).run st).2 := by
  cases h : bindings.get? name with
  | none =>
    rw [run_bind_unbound candidate .covariant st h]
    exact Evolution.refl st
  | some held =>
    rw [run_bind_held candidate .covariant st h]
    exact Form.evolves_build (.union [held, candidate]) st

theorem evolves_bindAll (candidates : List TypeId) :
    Discipline.Evolves .free st ((bindings.bindAll name candidates .covariant).run st).2 := by
  induction candidates generalizing bindings st with
  | nil => exact Evolution.refl st
  | cons candidate candidates ih =>
    rw [run_bindAll_cons]
    exact Evolution.trans (evolves_bind bindings name st candidate) (ih _ _)

end Bindings

namespace Matcher

/-- The variable is shown one element after another. -/
theorem run_allM_elements {s : State} {u : TypeId} {name : String}
    (hu : s.2.lookup u = some (.infer name)) (below : Goal → MatchM Bool) {slots : List Slot}
    {elements : List TypeId} (h : List.Forall₂ s.2.Spreads slots elements)
    (hne : ∀ t ∈ elements, t ≠ u) :
    Action.run (slots.allM fun slot =>
      (do step below ⟨← elementType slot, u, .covariant⟩ : MatchM Bool)) s =
      let bound := (s.1.bindings.bindAll name elements .covariant).run s.2
      (true, { s.1 with bindings := bound.1 }, bound.2) := by
  induction slots generalizing s elements with
  | nil =>
    cases h
    rfl
  | cons slot slots ih =>
    obtain ⟨t, elements, ht, hrest, rfl⟩ := List.forall₂_cons_left_iff.mp h
    obtain ⟨hfirst, hne⟩ := List.forall_mem_cons.mp hne
    have hgrown := (s.1.bindings.evolves_bind name s.2 t).grown
    have hask : Action.run (do step below ⟨← elementType slot, u, .covariant⟩ : MatchM Bool) s =
        Action.run (step below ⟨t, u, .covariant⟩) s := by
      have helement : Action.run (liftM (elementType slot) : MatchM TypeId) s = (t, s) := by
        show (((elementType slot).run s.2).1, s.1, ((elementType slot).run s.2).2) = _
        rw [ht.element]
      rw [Action.run_bind, helement]
    have hone : Action.run (step below ⟨t, u, .covariant⟩) s = _ := run_step_infer hfirst hu
    rw [List.allM, Action.run_bind, hask, hone, Bindings.run_bindAll_cons]
    exact ih ((hgrown.lookup (Store.lt_size_of_lookup (by simp [hu]))).trans hu)
      (hrest.imp fun _ _ hx => hx.later hgrown) hne

/-- A tuple matches the arrays of a variable, which takes all elements. -/
theorem run_matchPattern_elements {st : Store} (ha : st.Anchored) {t pattern u : TypeId}
    {name : String} {slots : List Slot} {elements : List TypeId}
    (ht : st.ClosedTuple t slots elements) (hpattern : st.form? pattern = some (.array u))
    (hu : st.lookup u = some (.infer name)) {limits : Limits} (hl : limits.Positive) :
    let bound := (Bindings.bindAll .empty name elements .covariant).run st
    (matchPattern t pattern limits).run st = (some bound.1, bound.2) := by
  intro bound
  obtain ⟨id, hid, hslots⟩ := Store.lookup_tuple ht.form
  have hdiffer : t ≠ pattern := by
    rintro rfl
    cases ht.form.symm.trans hpattern
  have hplain := ha.founded.ne_intrinsic (Store.isContainer_tuple ht.form)
  have harray (kind : Intrinsic) : pattern ≠ kind.id := by
    rintro rfl
    cases (ha.founded.form kind).symm.trans hpattern
  have htop : pattern.isTop = false := by
    simp only [TypeId.isTop, Bool.or_eq_false_iff, decide_eq_false_iff_not]
    exact ⟨harray .any, harray .unknown⟩
  have hne : ∀ x ∈ elements, x ≠ u := by
    rintro x hx rfl
    exact (ht.element ha hx).2 x .refl name (Store.form_of_lookup hu)
  obtain ⟨_, _, _, hrun, rfl, hbound⟩ := run_matchPattern_visit hl (F := fun _ _ => True)
    (Q := fun b bindings st' => b = true ∧ (bindings, st') = bound) hdiffer
    (Store.lookup_array.mp hpattern)
    (fun _ h => by cases h) htop (hplain .never) (hplain .any) fun g stop room _ => by
      obtain ⟨below, hbelow⟩ := descend_eq_step stop room
      apply leads_getStore
      simp only [hid, matchNodes, hbelow, hslots]
      unfold Leads
      rw [run_allM_elements hu below ht.spread hne]
      exact ⟨trivial, rfl, rfl⟩
  rw [hrun, ← hbound]
  rfl

end Matcher

namespace Evaluator

open Store (Made)

/-- The variable of an array pattern is answered with what it has taken, and with `never` if that is
nothing. -/
theorem run_branch_elements {st : Store} (ha : st.Anchored) {t pattern u : TypeId} {name : String}
    {slots : List Slot} {elements : List TypeId} (ht : st.ClosedTuple t slots elements)
    (hpattern : st.form? pattern = some (.array u)) (hu : Made (.infer name) u st) {limits : Limits}
    (hl : limits.Positive) :
    let bound := (Bindings.bindAll .empty name elements .covariant).run st
    (branch limits { pattern, yes := u, no := .never, distributive := true } t).run st =
      ((bound.1.get? name).getD .never, bound.2) := by
  intro bound
  have hgrown : st.Extends bound.2 := (Bindings.evolves_bindAll .empty name st elements).grown
  have hcell := Substitution.cells_infer hu
  have hlookup : st.lookup u = some (.infer name) := by simp [Store.lookup, hcell, Cell.node?]
  have hmatch : Action.run (matchPattern t pattern limits) st = (some bound.1, bound.2) :=
    Matcher.run_matchPattern_elements ha ht hpattern hlookup hl
  have hany : t ≠ .any := ha.founded.ne_intrinsic (Store.isContainer_tuple ht.form) .any
  show Action.run (branch limits { pattern, yes := u, no := .never, distributive := true } t) st = _
  unfold branch
  rw [Action.run_bind, hmatch]
  simp only [hany, decide_false, Bool.false_and]
  exact Substitution.run_applyOnce_infer (.ofBindings bound.1) (hgrown.founded ha.founded) rfl rfl
    ((hgrown.cell hu.lt_size).trans hcell)

/-- What a variable has taken is the union of the elements. -/
theorem run_mkUnion_elements {st : Store} (hg : Discipline.Good .typed st) (hr : st.Reached)
    {elements : List TypeId} (helements : ∀ t ∈ elements, t < st.size) (name : String) :
    let bound := (Bindings.bindAll .empty name elements .covariant).run st
    (Store.mkUnion elements).run bound.2 = ((bound.1.get? name).getD .never, bound.2) := by
  intro bound
  cases elements with
  | nil => rfl
  | cons first rest =>
    have hself : (Store.mkUnion [first]).run st = (first, st) :=
      Store.mkUnion_self (hg.tidy rfl) hr.shared (hg.anchored fun h => by cases h) first
    obtain ⟨_, hall⟩ := Merging.unions.run_mergeAll ⟨hg, hr⟩
      (fun t hm => helements t (List.mem_append_left rest hm))
      (fun t hm => helements t (List.mem_cons_of_mem first hm))
      hself
    obtain ⟨hget, hstore⟩ : bound.1.get? name = _ ∧ _ := Bindings.get?_bindAll .covariant st rfl
    rw [hget, hstore]
    exact hall

variable {s : State}

/-- Inference answers with the union of what the slots add. -/
theorem proceeds_inferTuple (hp : Proper s) (hnew : s.1.memo = .empty) {t : TypeId}
    {slots : List Slot} {elements : List TypeId} (ht : s.2.ClosedTuple t slots elements) :
    Leads Proceeds (inferTuple t) s fun a s' => (Store.mkUnion elements).run s'.2 = (a, s'.2) := by
  have hg := hp.ready.good
  unfold inferTuple inferArray
  apply (proceeds_lift (Discipline.runs_mkInfer hg "U").leads).bind
  rintro u s₁ h₁ ⟨he₁, hinfer⟩
  have hg₁ := h₁.upholds.store.good hg
  have hinfer := hinfer.typed hg₁
  apply (proceeds_lift (Discipline.runs_mkArray hg₁ (fit_typed hinfer.lt_size)).leads).bind
  rintro pattern s₂ h₂ ⟨he₂, hpattern⟩
  have h := Evolution.trans h₁ h₂
  have hg₂ := h.upholds.store.good hg
  have hpattern := hpattern.typed hg₂
  have hinfer₂ := hinfer.later hg₁.wellFormed h₂.upholds.store.grown
  have ht₂ := ht.later hg.wellFormed h.upholds.store.grown
  have hempty : s₂.1.memo = .empty := by rw [he₂, he₁, hnew]
  apply (proceeds_choose (hp.later h) rfl ⟨hpattern.lt_size, hinfer₂.lt_size,
    hg₂.valid_intrinsic .never⟩ (Store.lt_size_of_form ht₂.form)
    (hg₂.wellFormed.founded.unionMembers_container (Store.isContainer_tuple ht₂.form))
    (unseen_of_empty hempty _)).mono
  rintro a s₃ h₃ ⟨⟨st, hst, hbranch⟩, _⟩
  have hgst := hst.good hg₂
  have htst := ht₂.later hg₂.wellFormed hst.grown
  have hrun := run_branch_elements hgst.wellFormed.anchored htst
    ((hg₂.wellFormed.form_extends hst.grown hpattern.lt_size).trans hpattern.form)
    (hinfer₂.later hg₂.wellFormed hst.grown) (hp.later h).positive
  rw [hbranch] at hrun
  obtain ⟨rfl, hstore⟩ := Prod.mk.inj hrun
  rw [hstore]
  exact run_mkUnion_elements hgst (hst.reached (hp.later h).reached)
    (fun x hx => (htst.element hgst.wellFormed.anchored hx).1) "U"

end Evaluator

namespace Store

/-- Under the key `number` a tuple holds the types of its slots. -/
theorem run_indexAccess_number {st : Store} (hf : st.Founded) {t : TypeId} {slots : List Slot}
    (ht : st.form? t = some (.tuple slots)) :
    (indexAccess t .number).run st = (mkUnion (slots.map Slot.type)).run st := by
  obtain ⟨id, hid, hslots⟩ := lookup_tuple ht
  have hnumber : st.lookup .number = some (.intrinsic .number) := hf.lookup .number
  have hany : t ≠ .any := hf.ne_intrinsic (isContainer_tuple ht) .any
  have hread : Action.run (liftM (get : StoreM Store) : StoreM Store) st = (st, st) := rfl
  have hget : Action.run (get : StoreM Store) st = (st, st) := rfl
  have hmembers : st.unionMembers .number = [.number] := by
    rw [unionMembers, if_neg (by decide), hnumber]
  have hvalue : Action.run (valueAt t .number) st =
      Action.run (mkUnion (slots.map Slot.type)) st := by
    unfold valueAt
    rw [Action.run_bind, hget]
    simp only [hid, hnumber, if_true, hslots]
  show Action.run (indexAccess t .number) st = Action.run (mkUnion (slots.map Slot.type)) st
  unfold indexAccess
  rw [if_neg (by simp [hany])]
  unfold distribute
  rw [Action.run_bind, hread, hmembers]
  show Action.run (liftM (get : StoreM Store) >>= fun st => _) st = _
  rw [Action.run_bind, hread, hf.unionMembers_container (isContainer_tuple ht)]
  exact hvalue

theorem elements_of_fixed {st : Store} {slots : List Slot} {elements : List TypeId}
    (h : List.Forall₂ st.Spreads slots elements) (hfixed : ∀ slot ∈ slots, slot.rest = false) :
    elements = slots.map Slot.type := by
  induction h with
  | nil => rfl
  | @cons slot x slots elements hx _ ih =>
    obtain ⟨hfirst, hfixed⟩ := List.forall_mem_cons.mp hfixed
    rcases hx with ⟨_, rfl⟩ | ⟨hrest, _⟩
    · rw [List.map_cons, ih hfixed]
    · cases hfirst.symm.trans hrest

end Store

namespace Operation

open Evaluator

/-- Inference answers a tuple with the union of its elements, where a rest slot adds those of its
array. What the tuple holds under the key `number` is the union of the types of its slots. If there
is no rest slot the two are the same type, whichever is asked for first, and whatever is done in
between but to give placeholders their bodies. -/
theorem tuple_elements {ops : List Operation} (h : AllAccepted .typed .initial ops) {t : TypeId}
    {slots : List Slot} {elements : List TypeId} :
    let st := afterAll .initial ops
    st.ClosedTuple t slots elements →
    AnswersWith st (inferTuple t) (Store.mkUnion elements) ∧
    (∀ st', st.Supplemented st' →
      (Store.indexAccess t .number).run st' = (Store.mkUnion (slots.map Slot.type)).run st') ∧
    ((∀ slot ∈ slots, slot.rest = false) →
      AnswersWith st (inferTuple t) (Store.indexAccess t .number) ∧
      let held := (Store.indexAccess t .number).run st
      ∀ st', held.2.Supplemented st' → (Action.run (inferTuple t) (start, st')).1 = held.1) := by
  intro st ht
  have hg : Discipline.Good .typed st := h.good
  have hr : st.Reached := reached_afterAll .initial ops
  have hfit {st' : Store} (hev : Discipline.Evolves .typed st st') :
      ∀ x ∈ elements, Discipline.Fit .typed st' x := fun x hx =>
    fit_typed (Nat.lt_of_lt_of_le (ht.element hg.wellFormed.anchored hx).1 hev.grown.size)
  have hread {st' : Store} (hev : Discipline.Evolves .typed st st') :
      (Store.indexAccess t .number).run st' = (Store.mkUnion (slots.map Slot.type)).run st' :=
    Store.run_indexAccess_number (hev.reached hr).founded (ht.later hg.wellFormed hev.grown).form
  have hanswers : AnswersWith st (inferTuple t) (Store.mkUnion elements) :=
    answersWith_of_leads hg (proceeds_inferTuple (proper_start hg hr) rfl ht) fun st' hev =>
      Discipline.runs_mkUnion (hev.good hg) (hfit hev)
  refine ⟨hanswers, fun st' hst' => hread (hst'.evolves hg), fun hfixed => ?_⟩
  have hsame := Store.elements_of_fixed ht.spread hfixed
  subst hsame
  constructor
  · intro st' hst'
    obtain ⟨hproceeds, _⟩ := proceeds_inferTuple (proper_start hg hr) rfl ht
    have hev := hproceeds.upholds.store
    rw [hread (Evolution.trans hev (hst'.evolves (hev.good hg)))]
    exact hanswers st' hst'
  · intro held st' hst'
    have hheld : held = (Store.mkUnion (slots.map Slot.type)).run st := hread (Evolution.refl st)
    have hruns := Discipline.runs_mkUnion hg (hfit (Evolution.refl st))
    have hev : Discipline.Evolves .typed st held.2 := hheld ▸ hruns.leads.1
    have hst' := hst'.evolves (hev.good hg)
    have hlater := Evolution.trans hev hst'
    obtain ⟨hproceeds, hunion⟩ :=
      proceeds_inferTuple (proper_start (hlater.good hg) (hlater.reached hr)) rfl
      (ht.later hg.wellFormed hlater.grown)
    have hgrown := hst'.grown.trans hproceeds.upholds.store.grown
    rw [hheld] at hgrown ⊢
    have hagain : (Store.mkUnion (slots.map Slot.type)).run _ = _ :=
      hruns.echo _ ⟨(fun h => by cases h), hgrown.widens, fun _ => hgrown⟩
    exact (Prod.mk.inj (hunion.symm.trans hagain)).1

/-- A tuple with a rest slot and one without. -/
def sequences : List Operation :=
  [.build (.array .number), .build (.tuple [{ type := .string }, { type := 12, rest := true }]),
    .build (.tuple [{ type := .string, name := some "s" }, { type := 12, optional := true }])]

theorem tuple_elements_sequences :
    AllAccepted .typed .initial sequences ∧
      let st := afterAll .initial sequences
      st.ClosedTuple 13 [{ type := .string }, { type := 12, rest := true }] [.string, .number] ∧
        AnswersWith st (inferTuple 13) (Store.mkUnion [.string, .number]) ∧
        st.ClosedTuple 14 [{ type := .string, name := some "s" }, { type := 12, optional := true }]
          [.string, 12] ∧
        AnswersWith st (inferTuple 14) (Store.indexAccess 14 .number) := by
  have haccepted : AllAccepted .typed .initial sequences :=
    allAccepted_of_builds (by decide +kernel)
  have hfree (t : TypeId) (h : (afterAll .initial sequences).containsInfer t = false) :
      (afterAll .initial sequences).InferFree t :=
    (Store.containsInfer_eq_false (reached_afterAll .initial sequences).founded).mp h
  have hrest : (afterAll .initial sequences).ClosedTuple 13
      [{ type := .string }, { type := 12, rest := true }]
      [.string, .number] :=
    ⟨by decide +kernel, hfree 13 (by decide +kernel),
      .cons (.inl ⟨rfl, rfl⟩) (.cons (.inr ⟨rfl, by decide +kernel⟩) .nil)⟩
  have hfixed : (afterAll .initial sequences).ClosedTuple 14
      [{ type := .string, name := some "s" }, { type := 12, optional := true }] [.string, 12] :=
    ⟨by decide +kernel, hfree 14 (by decide +kernel),
      .cons (.inl ⟨rfl, rfl⟩) (.cons (.inl ⟨rfl, rfl⟩) .nil)⟩
  exact ⟨haccepted, hrest, (tuple_elements haccepted hrest).1, hfixed,
    ((tuple_elements haccepted hfixed).2.2 (by decide)).1⟩

/-- Under the key `number` there is the array of a rest slot, where inference finds its elements. -/
theorem rest_slot_held_whole :
    AllAccepted .typed .initial sequences ∧
      let st := afterAll .initial sequences
      let inferred := Action.run (inferTuple 13) (start, st)
      let held := (Store.indexAccess 13 .number).run inferred.2.2
      st.form? 13 = some (.tuple [{ type := .string }, { type := 12, rest := true }]) ∧
        st.form? 12 = some (.array .number) ∧ st.containsInfer 13 = false ∧
        held.2.form? inferred.1 = some (.union [.number, .string]) ∧
        held.2.form? held.1 = some (.union [.string, 12]) ∧ held.1 ≠ inferred.1 :=
  ⟨allAccepted_of_builds (by decide +kernel), by decide +kernel⟩

end Operation

end TypeCalculus
