import TypeCalculus.Proofs.Growth

namespace TypeCalculus.Evaluator

open Store (Kind)

/-- The types that can be reached from where a branch runs into itself at an interned type. -/
def Missed (st : Store) (c : Conditional) (v : TypeId) : Prop :=
  ∃ branch ∈ [c.yes, c.no], ∃ t, st.CycleEntry branch t ∧ st.Reaches t v

def InfersOf (id : ConditionalId) (X : TypeId → Prop) (operator : Operator) (st : Store)
    (t : TypeId) : Prop :=
  t < st.size ∧ (operator = .conditional id → st.InfersIn X t)

/-- The types that an operator may answer with are a kind. -/
theorem kind_infersOf (id : ConditionalId) (X : TypeId → Prop) (operator : Operator) :
    Kind (InfersOf id X operator) := by
  by_cases h : operator = .conditional id
  · have he : InfersOf id X operator = fun st t => t < st.size ∧ st.InfersIn X t := by
      funext st t
      simp [InfersOf, h]
    exact he ▸ Store.kind_infersIn X
  · have he : InfersOf id X operator = fun st t => t < st.size := by
      funext st t
      simp [InfersOf, h]
    exact he ▸ Store.kind_valid

/-- An infer variable in the answer of a conditional comes from where a branch runs into itself. -/
theorem applyConditional_infers {st : Store} (hg : st.Grown) {e : Evaluator} (he : e.Known st)
    {id : ConditionalId} {c : Conditional} (hc : st.conditionals.get? id = some c)
    (hmemo : ∀ n progress a, e.memo.get? ⟨.conditional id, n⟩ = some progress →
      progress.type? = some a → st.InferFree a)
    {subject : TypeId} (hs : subject < st.size) (hfree : st.InferFree subject) :
    let r := ((applyConditional id subject).run e).run st
    ∀ v name, r.2.Reaches r.1.1 v → r.2.form? v = some (.infer name) → Missed st c v := by
  have hw := hg.wellFormed
  have hV := kind_infersOf id (Missed st c)
  have free (st' : Store) (t : TypeId) (_ : st'.WellFormed) (ht : t < st'.size)
      (hf : st'.InferFree t) : InfersOf id (Missed st c) (.conditional id) st' t :=
    ⟨ht, fun _ u hu name hform => absurd hform (hf u hu name)⟩
  have hheld : Held (InfersOf id (Missed st c)) (e, st) := by
    refine ⟨hw, fun {task progress t} hm ht => ⟨he _ _ _ hm ht, fun hop u hu name hform => ?_⟩⟩
    obtain ⟨operator, n⟩ := task
    subst hop
    exact absurd hform (hmemo n progress t hm ht u hu name)
  obtain ⟨_, _, hinfers⟩ := leads_applyConditional hV free hheld (free st subject hw hs hfree)
    fun s' h' branch hb t hcycle => by
      have hc' : s'.2.conditional id = c := by
        have hget : s'.2.conditionals.get? id = some c :=
          h'.later.grown.conditionals.get? hc
        simp [Store.conditional, hget]
      rw [hc'] at hb
      have hbranch : branch < st.size := by
        have hin := hw.conditional (List.mem_of_getElem? hc)
        rcases List.mem_pair.mp hb with rfl | rfl
        · exact hin.2.1
        · exact hin.2.2
      have hentry := hw.cycleEntry_extends h'.later.grown hbranch hcycle
      refine (hV _).later hw h'.later.grown ⟨hw.lt_size_of_reaches hbranch hentry.reaches, ?_⟩
      exact fun _ u hu _ _ => ⟨branch, hb, t, hentry, hu⟩
  exact fun v name hv hform => hinfers rfl v hv name hform

/-- The template `N = P[]` where `P = { x: infer X; n: N }`, entered at the array. -/
def knot : Conditional := { pattern := 16, yes := 13, no := .never }

def knotted : Store := Construction.afterAll .initial
  [.reserve, .array 12, .infer "X",
    .defineObject 12 { fields := [{ name := "x", type := 14 }, { name := "n", type := 13 }] },
    .array .string, .array 14, .conditional knot]

theorem grown_knotted : knotted.Grown := Store.Grown.initial.builtAll (by decide)

theorem inferFree_knotted : knotted.InferFree 15 :=
  (Store.containsInfer_eq_false grown_knotted.wellFormed.founded).mp (by decide +kernel)

theorem conditional_knotted : knotted.conditionals.get? 0 = some knot := by decide

theorem grown_afterKnot : (((applyConditional 0 15).run start).run knotted).2.Grown :=
  grown_knotted.evaluated (known_start .evaluation _) (.conditional 0 15) (by decide)

/-- The subject `string[]` reaches no infer variable, and the answer does. -/
theorem applyConditional_leaves_infer :
    knotted.Grown ∧ knotted.conditionals.get? 0 = some knot ∧ knotted.InferFree 15 ∧
      let r := ((applyConditional 0 15).run start).run knotted
      ¬ r.2.InferFree r.1.1 := by
  refine ⟨grown_knotted, conditional_knotted, inferFree_knotted, fun h => ?_⟩
  have hscan := (Store.containsInfer_eq_false grown_afterKnot.wellFormed.founded).mpr h
  revert hscan
  decide +kernel

theorem applyConditional_infers_knotted : Missed knotted knot 14 := by
  refine applyConditional_infers grown_knotted (known_start .evaluation _) conditional_knotted nofun
    (by decide) inferFree_knotted 14 "X" ?_ (by decide +kernel)
  exact ((Store.mem_reachable grown_afterKnot.wellFormed.founded).mp (by decide +kernel)).2

end TypeCalculus.Evaluator
