import TypeCalculus.Proofs.Acceptors
import TypeCalculus.Proofs.Partition
import TypeCalculus.Proofs.UnionAlgebra
import TypeCalculus.Proofs.Verdicts

namespace TypeCalculus

namespace Store

variable {st : Store} {ms : List TypeId}

/-- As long as no placeholder is among them, regular members are not disjoint. -/
theorem RegularIntersection.isDisjoint (hr : st.RegularIntersection ms)
    (hreserved : ∀ m ∈ ms, st.isReserved m = false) : st.isDisjoint ms = false := by
  have hliterals : ¬ 1 < (ms.filter st.isLiteral).length := by
    intro h
    have hasc := hr.ascending.filter st.isLiteral
    rcases hl : ms.filter st.isLiteral with _ | ⟨m, _ | ⟨n, rest⟩⟩
    · simp [hl] at h
    · simp [hl] at h
    · have hm : m ∈ ms.filter st.isLiteral := by simp [hl]
      have hn : n ∈ ms.filter st.isLiteral := by simp [hl]
      rw [List.mem_filter] at hm hn
      rw [hl] at hasc
      have hlt := (List.pairwise_cons.mp hasc).1 n List.mem_cons_self
      exact absurd (hr.literals hm.1 hn.1 hm.2 hn.2) (Nat.ne_of_lt hlt)
  simp only [Store.isDisjoint, Bool.or_eq_false_iff, decide_eq_false_iff_not, Bool.and_eq_false_imp,
    List.any_eq_false, List.mem_filterMap, Bool.not_eq_true', List.isEmpty_eq_false_iff_exists_mem]
  refine ⟨⟨hliterals, ?_⟩, ?_⟩
  · rintro p ⟨m, hm, hp⟩
    simp only [Bool.not_eq_true, List.any_eq_false, List.mem_filterMap]
    rintro q ⟨n, hn, hq⟩
    simpa using (hr.classes hm hn hp hq).symm
  · rintro ⟨p, m, hm, hp⟩ n hn ho
    have := hr.objects hm hn hp ho
    rw [hreserved n hn] at this
    cases this

/-- What is the only member stays as it is. -/
theorem intersectionPlan_only {types : List TypeId} {t : TypeId}
    (h : ∀ m, m ∈ types.flatMap st.intersectionMembers ↔ m = t) :
    st.intersectionPlan types = .inl t := by
  have hflat : ascending (types.flatMap st.intersectionMembers) = [t] :=
    (pairwise_ascending _).eq_of_mem_iff (List.pairwise_singleton _ t) fun m => by
      rw [mem_ascending, h, List.mem_singleton]
  rw [intersectionPlan, crossed, hflat]
  by_cases hnever : t = .never
  · rw [hnever, if_pos List.mem_cons_self]
  by_cases hany : t = .any
  · rw [hany, if_neg (by decide), if_pos List.mem_cons_self]
  rw [if_neg fun h => hnever (List.mem_singleton.mp h).symm,
    if_neg fun h => hany (List.mem_singleton.mp h).symm]
  by_cases hunknown : t = .unknown
  · rw [hunknown]
    rfl
  · simp [hunknown]

theorem intersectionPlan_regular (hr : st.RegularIntersection ms)
    (hreserved : ∀ m ∈ ms, st.isReserved m = false) {types : List TypeId}
    (h : ∀ m, m ∈ types.flatMap st.intersectionMembers ↔ m ∈ ms) :
    st.intersectionPlan types = .inr ms := by
  have hflat : ascending (types.flatMap st.intersectionMembers) = ms :=
    (pairwise_ascending _).eq_of_mem_iff hr.ascending fun m => by rw [mem_ascending, h]
  have hcrossed : st.crossed types = ms := by
    rw [crossed, hflat, List.filter_eq_self]
    exact fun m hm => by simpa using (hr.plain hm).2.1
  have hdisjoint := hr.isDisjoint hreserved
  have hseveral := hr.several
  rw [intersectionPlan, hflat, if_neg fun h => (hr.plain h).2.2 rfl,
    if_neg fun h => (hr.plain h).1 rfl,
    hcrossed]
  rcases ms with _ | ⟨m, _ | ⟨n, rest⟩⟩
  · cases hseveral
  · simp at hseveral
  · simp only [hdisjoint, Bool.false_eq_true, if_false]

/-- The intersection of one type is that type, unless it is one that a placeholder is in. -/
theorem mkIntersection_self (ht : st.Tidy) (hs : st.Shared) (ha : st.Anchored) {t : TypeId}
    (hreserved : ∀ id, st.lookup t = some (.intersection id) →
      ∀ m ∈ st.list id, st.isReserved m = false) :
    (mkIntersection [t]).run st = (t, st) := by
  rw [run_mkIntersection]
  by_cases hi : ∃ id, st.lookup t = some (.intersection id)
  · obtain ⟨id, hl⟩ := hi
    have hr : st.RegularIntersection (st.list id) := ht.regular (form_of_lookup hl)
    have hmembers : st.intersectionMembers t = st.list id := by
      unfold intersectionMembers
      rw [hl]
    have hcell : st.cells[t]? = some (.interned (.intersection id)) := by
      apply interned_iff.mpr ⟨hl, _⟩
      cases h : st.isReserved t with
      | false => rfl
      | true => cases ht.container h hl
    rw [intersectionPlan_regular hr (hreserved id hl) fun m => by simp [hmembers]]
    exact intern_members hs hcell (get?_of_placed (ha.placed hl))
  · have hmembers := intersectionMembers_plain fun id hl => hi ⟨id, hl⟩
    rw [intersectionPlan_only (t := t) fun m => by simp [hmembers]]

/-- Functions make up an intersection just as they are. -/
theorem regularIntersection_functions (hf : st.Founded) (hasc : ms.Pairwise (· < ·))
    (hseveral : 2 ≤ ms.length)
    (h : ∀ f ∈ ms, ∃ signature, st.form? f = some (.function signature)) :
    st.RegularIntersection ms := by
  have hlookup {f : TypeId} (hm : f ∈ ms) : ∃ id, st.lookup f = some (.function id) := by
    obtain ⟨signature, hform⟩ := h f hm
    obtain ⟨id, hl, _⟩ := lookup_function hform
    exact ⟨id, hl⟩
  have hplain {f : TypeId} (hm : f ∈ ms) (kind : Intrinsic) : f ≠ kind.id := by
    obtain ⟨signature, hform⟩ := h f hm
    exact hf.ne_of_function hform kind
  have hprimitive {f p : TypeId} (hm : f ∈ ms) : st.primitive? f ≠ some p := by
    obtain ⟨id, hl⟩ := hlookup hm
    have hnot : f ∉ [TypeId.string, .number, .boolean, .bigint, .symbol, .null, .undefined] := by
      simpa using ⟨hplain hm .string, hplain hm .number, hplain hm .boolean, hplain hm .bigint,
        hplain hm .symbol, hplain hm .null, hplain hm .undefined⟩
    simp [primitive?, hnot, hl]
  have hliteral {f : TypeId} (hm : f ∈ ms) : st.isLiteral f ≠ true := by
    obtain ⟨id, hl⟩ := hlookup hm
    simp [isLiteral, hl]
  refine ⟨hasc, hseveral, fun hm => ⟨hplain hm .any, hplain hm .unknown, hplain hm .never⟩,
    fun hm id hl => ?_, fun hm _ hp => absurd hp (hprimitive hm),
      fun hm _ hl => absurd hl (hliteral hm),
    fun hm _ hp => absurd hp (hprimitive hm)⟩
  obtain ⟨_, hl'⟩ := hlookup hm
  cases hl.symm.trans hl'

end Store

/-- Some list is related to any list each of whose entries has something to be related to. -/
theorem exists_forall₂ {α β : Type} {R : α → β → Prop} {ys : List β} (h : ∀ y ∈ ys, ∃ x, R x y) :
    ∃ xs, List.Forall₂ R xs ys := by
  induction ys with
  | nil => exact ⟨[], .nil⟩
  | cons y ys ih =>
    obtain ⟨x, hx⟩ := h y List.mem_cons_self
    obtain ⟨xs, hxs⟩ := ih fun z hz => h z (List.mem_cons_of_mem y hz)
    exact ⟨x :: xs, .cons hx hxs⟩

namespace Store

open Evaluator (acceptor)

variable {st : Store}

theorem Combines.later {st' : Store} {ms : List TypeId} {t : TypeId} (h : st.Combines ms t)
    (ha : st.Anchored) (hs : st.Extends st') : st'.Combines ms t := by
  have hform {u : TypeId} {f : Form} (hu : st.form? u = some f) : st'.form? u = some f :=
    (ha.form_extends hs (lt_size_of_form hu)).trans hu
  cases h with
  | one h => exact .one (hform h)
  | several ht hne h => exact .several (hform ht) hne (h.imp fun _ _ => hform)

theorem Combines.lookup {ms : List TypeId} {t : TypeId} (h : st.Combines ms t) :
    ∃ node, st.lookup t = some node ∧ ∀ kind, node ≠ .intrinsic kind := by
  cases h with
  | one h =>
    obtain ⟨id, hl, _⟩ := lookup_function h
    exact ⟨_, hl, fun _ h => by cases h⟩
  | several h =>
    obtain ⟨id, hl, _⟩ := lookup_intersection h
    exact ⟨_, hl, fun _ h => by cases h⟩

section Functions

variable {types fs : List TypeId}
  (h : List.Forall₂ (fun m f => Made (.function (acceptor m)) f st) types fs)

include h

/-- In ascending order the functions take the same types in another order. -/
theorem exists_accepted : ∃ ms,
    List.Forall₂ (fun m f => st.form? f = some (.function (acceptor m))) ms (ascending fs) ∧
      (∀ m, m ∈ ms ↔ m ∈ types) ∧ ms.length ≤ types.length := by
  obtain ⟨ms, hms⟩ : ∃ ms, List.Forall₂ (fun m f => st.form? f = some (.function (acceptor m))) ms
      (ascending fs) := by
    apply exists_forall₂
    intro f hf
    obtain ⟨m, _, hmade⟩ := mem_right_of_forall₂ h (mem_ascending.mp hf)
    exact ⟨m, hmade.form⟩
  refine ⟨ms, hms, fun m => ⟨fun hm => ?_, fun hm => ?_⟩, ?_⟩
  · obtain ⟨f, hf, hform⟩ := mem_left_of_forall₂ hms hm
    obtain ⟨n, hn, hmade⟩ := mem_right_of_forall₂ h (mem_ascending.mp hf)
    cases hform.symm.trans hmade.form
    exact hn
  · obtain ⟨f, hf, hmade⟩ := mem_left_of_forall₂ h hm
    obtain ⟨n, hn, hform⟩ := mem_right_of_forall₂ hms (mem_ascending.mpr hf)
    cases hform.symm.trans hmade.form
    exact hn
  · rw [hms.length_eq, h.length_eq]
    apply List.Nodup.length_le_of_subset
    · exact (pairwise_ascending fs).imp Nat.ne_of_lt
    · exact fun f hf => mem_ascending.mp hf

/-- The intersection of functions that take one type each takes the same types, in some order. -/
theorem combines_mkIntersection (hg : Discipline.Good .typed st) (hne : types ≠ []) :
    Leads (Discipline.Evolves .typed) (mkIntersection fs) st fun t st' =>
      ∃ ms, (∀ m, m ∈ ms ↔ m ∈ types) ∧ ms.length ≤ types.length ∧ st'.Combines ms t := by
  have hanchored := hg.anchored fun h => by cases h
  have hmade : ∀ f ∈ ascending fs, ∃ signature, Made (.function signature) f st := by
    intro f hf
    obtain ⟨_, _, hmade⟩ := mem_right_of_forall₂ h (mem_ascending.mp hf)
    exact ⟨_, hmade⟩
  have hfit : ∀ f ∈ ascending fs, Discipline.Fit .typed st f := by
    intro f hf
    obtain ⟨_, hmade⟩ := hmade f hf
    exact ⟨fun _ => hmade.lt_size, fun h => by cases h⟩
  have hmembers (m : TypeId) : m ∈ fs.flatMap st.intersectionMembers ↔ m ∈ ascending fs := by
    have hplain : ∀ f ∈ fs, st.intersectionMembers f = [f] := by
      intro f hf
      obtain ⟨_, hmade⟩ := hmade f (mem_ascending.mpr hf)
      obtain ⟨_, hl, _⟩ := lookup_function hmade.form
      exact intersectionMembers_plain fun id hl' => by cases hl.symm.trans hl'
    rw [List.flatMap_congr hplain, mem_ascending]
    simp
  obtain ⟨ms, hms, hmem, hlength⟩ := exists_accepted h
  refine ⟨(Discipline.runs_mkIntersection hg fun f hf => hfit f (mem_ascending.mpr hf)).leads.1, ms,
    hmem, hlength, ?_⟩
  show ((mkIntersection fs).run st).2.Combines ms ((mkIntersection fs).run st).1
  rw [run_mkIntersection]
  rcases hgs : ascending fs with _ | ⟨f, _ | ⟨g, rest⟩⟩
  · rw [hgs] at hms
    cases hms
    obtain ⟨m, hm⟩ := List.exists_mem_of_ne_nil types hne
    cases (hmem m).mpr hm
  · rw [hgs] at hms
    rw [intersectionPlan_only (t := f) fun m => by rw [hmembers, hgs, List.mem_singleton]]
    cases hms with
    | cons hform hnil =>
      cases hnil
      exact .one hform
  · have hregular : st.RegularIntersection (ascending fs) :=
      regularIntersection_functions hanchored.founded (pairwise_ascending fs)
        (by simp [hgs]) fun f hf =>
        (hmade f hf).imp fun _ hmade => hmade.form
    have hinterned : ∀ f ∈ ascending fs, st.isReserved f = false := by
      intro f hf
      obtain ⟨_, hmade⟩ := hmade f hf
      exact hmade.interned
    have hbuilt : Runs (Discipline.Again .typed) (Discipline.Evolves .typed)
        (internList (ascending fs) >>= fun id => intern (.intersection id)) st
        (Discipline.Built .typed (.intersection (ascending fs))) := by
      apply Discipline.runs_entry (f := .intersection (ascending fs)) hg _
        (fun _ _ h => by cases h) hfit
        fun _ => hregular
      apply (Discipline.runs_internList (ascending fs)).mono
      intro id st' _ hid hi
      simp [Placed, form, list, hid hi]
    rw [intersectionPlan_regular hregular hinterned hmembers]
    have hmade := hbuilt.leads.2.typed (hbuilt.leads.1.good hg)
    refine .several hmade.form (by simp [hgs]) (hms.imp fun m f hform => ?_)
    exact (hanchored.form_extends hbuilt.leads.1.grown (lt_size_of_form hform)).trans hform

end Functions

theorem Tidy.intersections (ht : st.Tidy) (ha : st.Anchored) : st.Intersections := by
  refine ⟨ha.indexed, ?_⟩
  rintro t _ hl id rfl
  refine ⟨st.list id, get?_of_placed (ha.placed hl), ?_⟩
  have hr : st.RegularIntersection (st.list id) := ht.regular (form_of_lookup hl)
  exact ⟨exists_ne_of_ascending hr.ascending hr.several,
    fun hm => ⟨(hr.plain hm).1, (hr.plain hm).2.1⟩⟩

/-- A type of the store that does not have too many members, none of which is the variable that is
to be bound or an intersection that a placeholder is in. -/
structure Crossable (st : Store) (t : TypeId) : Prop where
  valid : t < st.size
  few : (st.unionMembers t).length < Limits.evaluation.iterations
  closed : ∀ m ∈ st.unionMembers t, st.lookup m ≠ some (.infer "R")
  settled : ∀ m ∈ st.unionMembers t, ∀ x ∈ st.intersectionMembers m, x = m ∨ st.isReserved x = false

instance (st : Store) (t : TypeId) : Decidable (st.Crossable t) :=
  decidable_of_iff (t < st.size ∧ (st.unionMembers t).length < Limits.evaluation.iterations ∧
      (∀ m ∈ st.unionMembers t, st.lookup m ≠ some (.infer "R")) ∧
      ∀ m ∈ st.unionMembers t, ∀ x ∈ st.intersectionMembers m, x = m ∨ st.isReserved x = false)
    ⟨fun ⟨hvalid, hfew, hclosed, hsettled⟩ => ⟨hvalid, hfew, hclosed, hsettled⟩,
      fun h => ⟨h.valid, h.few, h.closed, h.settled⟩⟩

/-- What may be crossed has the same members later on. -/
theorem Crossable.later {st' : Store} {t : TypeId} (h : st.Crossable t)
    (hg : Discipline.Good .typed st) (hs : st.Extends st') :
    st'.unionMembers t = st.unionMembers t ∧ st'.Crossable t := by
  have ha := hg.anchored fun h => by cases h
  have hmembers : st'.unionMembers t = st.unionMembers t := (ha.steady hs h.valid).unionMembers
  have hlt {m : TypeId} (hm : m ∈ st.unionMembers t) : m < st.size :=
    hg.wellFormed.lt_size_of_unionMembers h.valid hm
  refine ⟨hmembers, ⟨Nat.lt_of_lt_of_le h.valid hs.size, hmembers ▸ h.few, ?_, ?_⟩⟩
  · rw [hmembers]
    intro m hm
    rw [hs.lookup (hlt hm)]
    exact h.closed m hm
  · rw [hmembers]
    intro m hm x hx
    rw [(ha.steady hs (hlt hm)).intersectionMembers] at hx
    have hlt : x < st.size :=
      ((Evaluator.fit_typed (hlt hm)).mem_intersectionMembers hg hx).valid fun h => by cases h
    rw [hs.isReserved hlt]
    exact h.settled m hm x hx

/-- A variable that is shown the members of a type, in some order, stands for their intersection. -/
theorem get?_bindAll_members (hg : Discipline.Good .typed st) (hr : st.Reached) {t : TypeId}
    (ht : st.Crossable t) {ms : List TypeId} (hmem : ∀ m, m ∈ ms ↔ m ∈ st.unionMembers t)
    (hlength : ms.length ≤ (st.unionMembers t).length) (hne : ms ≠ []) (name : String) :
    let bound := (Bindings.bindAll .empty name ms .contravariant).run st
    ∃ a, bound.1.get? name = some a ∧
      (mkIntersection (st.unionMembers t)).run bound.2 = (a, bound.2) := by
  intro bound
  have htidy := hg.tidy rfl
  have ha := hg.anchored fun h => by cases h
  rcases ms with _ | ⟨first, _ | ⟨second, rest⟩⟩
  · exact absurd rfl hne
  · have hbound : bound = (Dict.insert .empty name first, st) := rfl
    have hself : (mkIntersection [first]).run st = (first, st) := by
      apply mkIntersection_self htidy hr.shared ha
      intro id hl x hx
      have hregular : st.RegularIntersection (st.list id) := htidy.regular (form_of_lookup hl)
      have hmember : x ∈ st.intersectionMembers first := by
        unfold intersectionMembers
        rw [hl]
        exact hx
      apply (ht.settled first ((hmem first).mp (by simp)) x hmember).resolve_left
      rintro rfl
      exact hregular.flat hx id hl
    have hmerge := Variance.run_merge_congr .contravariant st hmem
    rw [hbound]
    exact ⟨first, (Dict.get?_insert ..).trans (if_pos rfl), hmerge.symm.trans hself⟩
  · have hplain : ∀ m ∈ first :: second :: rest, m < st.size ∧ m ≠ .any := by
      intro m hm
      have hm := (hmem m).mp hm
      refine ⟨hg.wellFormed.lt_size_of_unionMembers ht.valid hm, ?_⟩
      rcases unionMembers_cases htidy t with ⟨_, he⟩ | ⟨_, he, _⟩ | ⟨_, _, he, hregular⟩
      · simp [he] at hlength
      · simp [he] at hlength
      · rw [he] at hm
        exact (hregular.plain hm).1
    have hgathers : Variance.contravariant.Gathers st first (second :: rest) := by
      apply Merging.intersections.gathers ⟨htidy.intersections ha, ha.founded⟩ hplain
      intro st' hg' hlater
      exact Merging.intersections.run_mergeAll_cons hg' fun m hm =>
        Merging.intersections.kept hlater (hplain m hm)
    obtain ⟨hget, hstore⟩ : bound.1.get? name = some _ ∧ bound.2 = _ := hgathers.bound rfl
    refine ⟨_, hget, ?_⟩
    rw [hstore]
    exact hgathers.before fun m => (hmem m).symm

end Store

namespace Evaluator

structure Provides (s s' : State) : Prop where
  evaluator : s'.1 = s.1
  store : Discipline.Evolves .typed s.2 s'.2

instance : Evolution Provides where
  refl s := ⟨rfl, Evolution.refl s.2⟩
  trans h h' := ⟨h'.evaluator.trans h.evaluator, Evolution.trans h.store h'.store⟩

theorem provides_lift {α : Type} {x : StoreM α} {s : State} {Q : α → Store → Prop}
    (h : Leads (Discipline.Evolves .typed) x s.2 Q) :
    Leads Provides (liftM x : EvalM α) s fun a s' => Q a s'.2 :=
  leads_lift ⟨rfl, h.1⟩ h.2

variable {st : Store}

theorem runs_accepting (hg : Discipline.Good .typed st) {t : TypeId} (ht : t < st.size) :
    Runs (Discipline.Again .typed) (Discipline.Evolves .typed) (accepting t) st
      (Discipline.Built .typed (.function (acceptor t))) := by
  apply Discipline.runs_mkFunction hg
  intro c hc
  have hc : c = t ∨ c = .any := by simpa [acceptor, Form.mentions] using hc
  rcases hc with rfl | rfl
  · exact fit_typed ht
  · exact hg.intrinsic rfl

def crossing (pattern r : TypeId) : Conditional := { pattern, yes := r, no := .never }

/-- For what takes all of some types, the answer is what was gathered of them. -/
theorem run_branch_crossing (ha : st.Anchored) {pattern r t a : TypeId}
    (hopens : st.Opens pattern r) {ms : List TypeId} (h : st.Combines ms t) (hne : ∀ m ∈ ms, m ≠ r)
    {limits : Limits} (hdepth : 1 < limits.depth) (hcount : ms.length < limits.iterations)
    (hany : t ≠ .any) :
    let bound := (Bindings.bindAll .empty "R" ms .contravariant).run st
    bound.1.get? "R" = some a → (branch limits (crossing pattern r) t).run st = (a, bound.2) := by
  intro bound hget
  have hgrown : st.Extends bound.2 := (Bindings.crosses_bindAll .empty "R" st ms).grown
  have hmatch : Action.run (matchPattern t (crossing pattern r).pattern limits) st =
      (some bound.1, bound.2) := Matcher.run_matchPattern_combines ha hopens hne hdepth hcount h
  show Action.run (branch limits (crossing pattern r) t) st = _
  unfold branch
  rw [Action.run_bind, hmatch]
  simp only [hany, decide_false, Bool.false_and]
  exact Substitution.applyOnce_infer (.ofBindings bound.1) (hgrown.founded ha.founded) rfl rfl
    (hopens.later ha hgrown).infer hget

def prepareCrossing (subject : TypeId) : EvalM (TypeId × ConditionalId) := do
  let functions ← ((← getThe Store).unionMembers subject).mapM fun t => accepting t
  let combined ← Store.mkIntersection functions
  let r ← Store.mkInfer "R"
  let pattern ← accepting r
  let id ← Store.internConditional (crossing pattern r)
  return (combined, id)

/-- The operator prepares the question and then asks it. -/
theorem unionToIntersection_eq {subject : TypeId} (h : subject ≠ .never) :
    unionToIntersection subject = prepareCrossing subject >>=
    fun p => applyConditional p.2 p.1 := by
  unfold unionToIntersection prepareCrossing choose
  rw [if_neg h]
  simp only [bind_assoc, pure_bind]
  rfl

def Prepared (types : List TypeId) (t : TypeId) (id : ConditionalId) (st : Store) : Prop :=
  ∃ pattern r ms, st.conditionals.get? id = some (crossing pattern r) ∧ st.Opens pattern r ∧
    (∀ m, m ∈ ms ↔ m ∈ types) ∧ ms.length ≤ types.length ∧ st.Combines ms t

/-- What takes each of the members has been built when the question is put. -/
theorem provides_prepareCrossing (hg : Discipline.Good .typed st) {subject : TypeId}
    (hsubject : subject < st.size) (hne : subject ≠ .never) (e : Evaluator) :
    Leads Provides (prepareCrossing subject) (e, st) fun p s' =>
      Prepared (st.unionMembers subject) p.1 p.2 s'.2 := by
  unfold prepareCrossing
  apply leads_getStore
  have hfunctions :
      Leads Provides ((st.unionMembers subject).mapM fun t => (accepting t : EvalM TypeId)) (e, st)
        fun fs s' => List.Forall₂ (fun m f => Store.Made (.function (acceptor m)) f s'.2)
          (st.unionMembers subject) fs := by
    apply Leads.mapM
    · intro m f s₁ s₂ h₁ h₂ hmade
      have ha := (h₁.store.good hg).anchored fun h => by cases h
      exact ⟨(ha.form_extends h₂.store.grown hmade.lt_size).trans hmade.form,
        (h₂.store.grown.isReserved hmade.lt_size).trans hmade.interned⟩
    · intro t ht s' hs'
      have hlt := hg.wellFormed.lt_size_of_unionMembers hsubject ht
      have hruns := runs_accepting (hs'.store.good hg) (Nat.lt_of_lt_of_le hlt hs'.store.grown.size)
      exact (provides_lift hruns.leads).mono fun _ s₁ h₁ hbuilt =>
        hbuilt.typed (h₁.store.good (hs'.store.good hg))
  have hmembers : st.unionMembers subject ≠ [] :=
    fun h => hne (Store.eq_of_unionMembers_nil (hg.tidy rfl) h)
  apply hfunctions.bind
  intro fs s₁ h₁ hfs
  have hg₁ := h₁.store.good hg
  apply (provides_lift (Store.combines_mkIntersection hfs hg₁ hmembers)).bind
  rintro t s₂ h₂ ⟨ms, hmem, hlength, hcombines⟩
  have hg₂ := h₂.store.good hg₁
  apply (provides_lift (Discipline.runs_mkInfer hg₂ "R").leads).bind
  intro r s₃ h₃ hr
  have hg₃ := h₃.store.good hg₂
  have hr := hr.typed hg₃
  apply (provides_lift (runs_accepting hg₃ hr.lt_size).leads).bind
  intro pattern s₄ h₄ hpattern
  have hg₄ := h₄.store.good hg₃
  have hpattern := hpattern.typed hg₄
  have hr₄ : r < s₄.2.size := Nat.lt_of_lt_of_le hr.lt_size h₄.store.grown.size
  have hconditional : Leads (Discipline.Evolves .typed)
      (Store.internConditional (crossing pattern r)) s₄.2
      fun id st' => st'.Indexed → st'.conditionals.get? id = some (crossing pattern r) :=
    Discipline.leads_internConditional fun _ =>
      ⟨hpattern.lt_size, hr₄, (hg₄.intrinsic rfl).valid fun h => by cases h⟩
  apply (provides_lift hconditional).bind
  intro id s₅ h₅ hid
  have ha {st : Store} (hg : Discipline.Good .typed st) : st.Anchored :=
    hg.anchored fun h => by cases h
  have hid := hid (ha (h₅.store.good hg₄)).indexed
  have hinfer : s₃.2.cells[r]? = some (.interned (.infer "R")) := by
    obtain ⟨node, hl, hform⟩ := Store.lookup_of_form hr.form
    cases node <;> cases hform
    exact Store.interned_iff.mpr ⟨hl, hr.interned⟩
  have hopens : s₄.2.Opens pattern r :=
    ⟨hpattern.form, (h₄.store.grown.cell hr.lt_size).trans hinfer⟩
  apply Leads.pure
  refine ⟨pattern, r, ms, hid, hopens.later (ha hg₄) h₅.store.grown, hmem, hlength, ?_⟩
  exact hcombines.later (ha hg₂) (h₃.store.grown.trans (h₄.store.grown.trans h₅.store.grown))

theorem run_applyConditional {s : State} {id : ConditionalId}
    (h : (s.2.conditional id).distributive = false) (x : TypeId) :
    Action.run (applyConditional id x) s = Action.run (conditionalMember id x) s := by
  have hget : Action.run (getThe Store : EvalM Store) s = (s.2, s) := rfl
  unfold applyConditional
  rw [Action.run_bind, hget, if_neg (by simp [h])]

/-- The question is answered by the intersection of the members, as it stands in the store then. -/
theorem crossed_applyConditional (hg : Discipline.Good .typed st) (hr : st.Reached)
    {subject t : TypeId} {id : ConditionalId} (h : st.Crossable subject) (hne : subject ≠ .never)
    (hprepared : Prepared (st.unionMembers subject) t id st) :
    let crossed := Action.run (applyConditional id t) (start, st)
    Discipline.Evolves .typed st crossed.2.2 ∧
      (Store.mkIntersection (st.unionMembers subject)).run crossed.2.2 =
      (crossed.1, crossed.2.2) := by
  obtain ⟨pattern, r, ms, hid, hopens, hmem, hlength, hcombines⟩ := hprepared
  have ha := hg.anchored fun h => by cases h
  have hconditional : st.conditional id = crossing pattern r := by
    rw [Store.conditional, hid]
    rfl
  have hms : ms ≠ [] := by
    rintro rfl
    apply hne
    apply Store.eq_of_unionMembers_nil (hg.tidy rfl)
    exact List.eq_nil_iff_forall_not_mem.mpr fun m hm => List.not_mem_nil ((hmem m).mpr hm)
  have hdiffer : ∀ m ∈ ms, m ≠ r := by
    rintro m hm rfl
    exact h.closed m ((hmem m).mp hm) hopens.lookup
  obtain ⟨node, hl, hnode⟩ := hcombines.lookup
  have ht : t < st.size := Store.lt_size_of_lookup (by simp [hl])
  have hany : t ≠ .any := by
    rintro rfl
    cases (ha.founded.lookup .any).symm.trans hl
    exact hnode .any rfl
  obtain ⟨a, hget, hintersection⟩ := Store.get?_bindAll_members hg hr h hmem hlength hms "R"
  have hbranch : (branch .evaluation (crossing pattern r) t).run st = _ :=
    run_branch_crossing ha hopens hcombines hdiffer (by decide) (Nat.lt_of_le_of_lt hlength h.few)
      hany hget
  have hparts : Parts (Discipline.rules .typed) (crossing pattern r) st :=
    ⟨fit_typed (Store.lt_size_of_form hopens.pattern),
      fit_typed (List.getElem?_eq_some_iff.mp hopens.infer).1, hg.intrinsic rfl⟩
  have hev := (runs_branch hg (fit_typed ht) .evaluation hparts).leads.1
  have hp := proper_start hg hr
  intro crossed
  have hcrossed : crossed = Action.run (conditionalMember id t) (start, st) :=
    run_applyConditional (by rw [hconditional]; rfl) t
  rcases run_conditionalMember hp.resting hp.positive id t with ⟨_, hrecalls, _⟩ | ⟨e, hrun, _⟩
  · cases hrecalls
  · have hchosen : Action.run (conditionalMember id t) (start, st) =
        (((branch .evaluation (st.conditional id) t).run st).1, e,
          ((branch .evaluation (st.conditional id) t).run st).2) := hrun
    have hev : Discipline.Evolves .typed st
        ((branch .evaluation (crossing pattern r) t).run st).2 := hev
    rw [hconditional, hbranch] at hchosen
    rw [hbranch] at hev
    rw [hcrossed, hchosen]
    exact ⟨hev, hintersection⟩

/-- The answer is the intersection of the members, as it stands in the store then. -/
theorem crossed_unionToIntersection (hg : Discipline.Good .typed st) (hr : st.Reached)
    {subject : TypeId} (h : st.Crossable subject) :
    let crossed := Action.run (unionToIntersection subject) (start, st)
    Discipline.Evolves .typed st crossed.2.2 ∧
      (Store.mkIntersection (st.unionMembers subject)).run crossed.2.2 =
      (crossed.1, crossed.2.2) := by
  intro crossed
  by_cases hne : subject = .never
  · subst hne
    exact ⟨Evolution.refl st, rfl⟩
  have hrun : crossed = let p := Action.run (prepareCrossing subject) (start, st)
      Action.run (applyConditional p.1.2 p.1.1) p.2 := by
    show Action.run (unionToIntersection subject) (start, st) = _
    rw [unionToIntersection_eq hne, Action.run_bind]
  obtain ⟨⟨he, hev⟩, hprepared⟩ := provides_prepareCrossing hg h.valid hne start
  generalize Action.run (prepareCrossing subject) (start, st) = prepared at *
  obtain ⟨⟨t, id⟩, e, st'⟩ := prepared
  dsimp only at he hev hprepared hrun
  obtain ⟨hmembers, hlater⟩ := h.later hg hev.grown
  rw [← hmembers] at hprepared ⊢
  rw [hrun, he]
  obtain ⟨hev', hintersection⟩ :=
    crossed_applyConditional (hev.good hg) (hev.reached hr) hlater hne hprepared
  exact ⟨Evolution.trans hev hev', hintersection⟩

end Evaluator

namespace Store

variable {st : Store} (hg : Discipline.Good .typed st)

include hg

theorem evolves_mkIntersection {t : TypeId} (ht : t < st.size) :
    Discipline.Evolves .typed st ((mkIntersection (st.unionMembers t)).run st).2 :=
  (Discipline.runs_mkIntersection hg fun _ hm =>
    Evaluator.fit_typed (hg.wellFormed.lt_size_of_unionMembers ht hm)).leads.1

/-- As long as the store is only added to, the intersection of the members of a type is found
again. -/
theorem mkIntersection_again {t : TypeId} (ht : t < st.size) (st' : Store) :
    let built := (mkIntersection (st.unionMembers t)).run st
    built.2.Extends st' → (mkIntersection (st.unionMembers t)).run st' = (built.1, st') := by
  intro built hs
  have hfit : ∀ m ∈ st.unionMembers t, Discipline.Fit .typed st m :=
    fun m hm => Evaluator.fit_typed (hg.wellFormed.lt_size_of_unionMembers ht hm)
  exact (Discipline.runs_mkIntersection hg hfit).echo st'
    ⟨(fun h => by cases h), hs.widens, fun _ => hs⟩

end Store

namespace Operation

/-- What a union is turned into is the intersection of its members, whichever of the two is built
first, and whatever is done in between but to give placeholders their bodies. -/
theorem unionToIntersection_exact {ops : List Operation} (h : AllAccepted .typed .initial ops) :
    let st := afterAll .initial ops
    (∀ subject, st.Crossable subject →
      (let crossed := Action.run (Evaluator.unionToIntersection subject) (Evaluator.start, st)
       ∀ st', crossed.2.2.Supplemented st' →
        (Store.mkIntersection (st'.unionMembers subject)).run st' = (crossed.1, st')) ∧
      (let built := (Store.mkIntersection (st.unionMembers subject)).run st
       ∀ st', built.2.Supplemented st' →
        (Action.run (Evaluator.unionToIntersection subject) (Evaluator.start, st')).1 = built.1)) ∧
    (Action.run (Evaluator.unionToIntersection .never) (Evaluator.start, st)).1 = .unknown ∧
    (Action.run (Evaluator.unionToIntersection .any) (Evaluator.start, st)).1 = .any := by
  intro st
  have hg : Discipline.Good .typed st := h.good
  have hr : st.Reached := reached_afterAll .initial ops
  have ha : st.Anchored := hg.anchored fun h => by cases h
  refine ⟨fun subject hsubject => ⟨fun st' hst' => ?_, fun st' hst' => ?_⟩, rfl, ?_⟩
  · obtain ⟨hev, hcrossed⟩ := Evaluator.crossed_unionToIntersection hg hr hsubject
    have hgrown := (hst'.evolves (hev.good hg)).grown
    obtain ⟨hmembers, hlater⟩ := hsubject.later hg hev.grown
    rw [(hsubject.later hg (hev.grown.trans hgrown)).1]
    have hagain := Store.mkIntersection_again (hev.good hg) hlater.valid st'
    rw [hmembers, hcrossed] at hagain
    exact hagain hgrown
  · have hbuilt := Store.evolves_mkIntersection hg hsubject.valid
    have hev := hst'.evolves (hbuilt.good hg)
    have hgrown := hbuilt.grown.trans hev.grown
    obtain ⟨hmembers, hlater⟩ := hsubject.later hg hgrown
    obtain ⟨hev', hcrossed⟩ := Evaluator.crossed_unionToIntersection (hev.good (hbuilt.good hg))
      (hev.reached (hbuilt.reached hr)) hlater
    rw [hmembers, Store.mkIntersection_again hg hsubject.valid _ (hev.grown.trans hev'.grown)]
      at hcrossed
    exact (Prod.mk.inj hcrossed).1.symm
  · have hmembers := hr.founded.unionMembers_any
    have hany : st.lookup .any = some (.intrinsic .any) := hr.founded.lookup .any
    have hself : st.intersectionMembers .any = [.any] :=
      Store.intersectionMembers_plain fun id => by simp [hany]
    have hcrossable : st.Crossable .any := by
      refine ⟨Store.lt_size_of_lookup (by simp [hany]), ?_, ?_, ?_⟩ <;> rw [hmembers]
      · decide
      · simp [hany]
      · simp [hself]
    obtain ⟨hev, hcrossed⟩ := Evaluator.crossed_unionToIntersection hg hr hcrossable
    have hg' := hev.good hg
    have hself := Store.mkIntersection_self (t := .any) (hg'.tidy rfl) (hev.reached hr).shared
      (hg'.anchored fun h => by cases h) fun id hl => by
        cases ((hev.reached hr).founded.lookup .any).symm.trans hl
    rw [hmembers, hself] at hcrossed
    exact (Prod.mk.inj hcrossed).1.symm

/-- A union of a parameter, an object and a placeholder, where the function that takes the object is
there before the others. -/
def lateFunctions : List Operation :=
  [.build (.param "T"), .build (.object { fields := [{ name := "a", type := .string }] }),
    .build .reserve,
    .build (.function (Evaluator.acceptor 13)), .build (.union [12, 13, 14])]

theorem unionToIntersection_exact_lateFunctions :
    AllAccepted .typed .initial lateFunctions ∧
      let st := afterAll .initial lateFunctions
      st.Crossable 16 ∧
      (let crossed := Action.run (Evaluator.unionToIntersection 16) (Evaluator.start, st)
       crossed.1 = 23 ∧
         (Store.mkIntersection (crossed.2.2.unionMembers 16)).run crossed.2.2 =
           (23, crossed.2.2)) ∧
      let built := (Store.mkIntersection (st.unionMembers 16)).run st
      built.1 = 17 ∧
        (Action.run (Evaluator.unionToIntersection 16) (Evaluator.start, built.2)).1 = 17 := by
  have haccepted : AllAccepted .typed .initial lateFunctions :=
    allAccepted_of_builds (by decide +kernel)
  have hcrossable : (afterAll .initial lateFunctions).Crossable 16 := by decide +kernel
  have hfirst : (Action.run (Evaluator.unionToIntersection 16)
      (Evaluator.start, afterAll .initial lateFunctions)).1 = 23 := by decide +kernel
  have hbuilt : ((Store.mkIntersection ((afterAll .initial lateFunctions).unionMembers 16)).run
      (afterAll .initial lateFunctions)).1 = 17 := by decide +kernel
  obtain ⟨hcrossed, hagain⟩ := (unionToIntersection_exact haccepted).1 16 hcrossable
  refine ⟨haccepted, hcrossable, ⟨hfirst, ?_⟩, hbuilt, ?_⟩
  · rw [hcrossed _ (.refl _), hfirst]
  · rw [hagain _ (.refl _), hbuilt]

/-- An intersection with the type that comes next, and turns out to be disjoint from the other
member. -/
def hastyLiteral : List Operation :=
  [.build (.intersection [13, .string]), .build (.literal (.boolean true))]

theorem unionToIntersection_keeps_disjoint :
    (∀ op ∈ hastyLiteral, op.Typed) ∧
      let st := afterAll .initial hastyLiteral
      st.Crossable 12 ∧
      let crossed := Action.run (Evaluator.unionToIntersection 12) (Evaluator.start, st)
      crossed.1 = 12 ∧
        ((Store.mkIntersection (crossed.2.2.unionMembers 12)).run crossed.2.2).1 = .never := by
  refine ⟨fun op hm => ?_, by decide +kernel, by decide +kernel, by decide +kernel⟩
  rcases List.mem_pair.mp hm with rfl | rfl
  · trivial
  · trivial

end Operation

end TypeCalculus
