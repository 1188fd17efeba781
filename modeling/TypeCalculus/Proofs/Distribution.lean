import TypeCalculus.Proofs.Quiescence
import TypeCalculus.Proofs.Recollection
import TypeCalculus.Proofs.UnionLaws

namespace TypeCalculus

def Store.Distributive (st : Store) : Operator → Prop
  | .conditional id => (st.conditional id).distributive = true
  | .mapping _ => True

theorem Store.Distributive.later {st st' : Store} {operator : Operator}
    (h : st.Distributive operator) (hs : st.Carries st') : st'.Distributive operator := by
  cases operator with
  | conditional id =>
    have hhas : st.Has (.conditional id) := by
      apply Nat.lt_of_not_le
      intro hle
      have hnone : st.conditionals.get? id = none := List.getElem?_eq_none hle
      simp [Store.Distributive, Store.conditional, hnone] at h
    show (st'.conditional id).distributive = true
    rw [hs.conditional hhas]
    exact h
  | mapping id => trivial

namespace Evaluator

structure Proper (s : State) : Prop where
  ready : Ready (Discipline.rules .typed) s
  resting : Resting s.1
  positive : s.1.limits.Positive
  reached : s.2.Reached

/-- Tasks were worked on, and what the users' discipline keeps was kept. -/
structure Proceeds (s s' : State) : Prop where
  upholds : Upholds (Discipline.rules .typed) s s'
  turns : Turns s s'

instance : Evolution Proceeds where
  refl s := ⟨Evolution.refl s, Evolution.refl s⟩
  trans h h' := ⟨Evolution.trans h.upholds h'.upholds, Evolution.trans h.turns h'.turns⟩

variable {s s' : State}

theorem Proceeds.lift {st' : Store} (h : Discipline.Evolves .typed s.2 st') :
    Proceeds s (s.1, st') :=
  ⟨.lift h, .lift ⟨h.grown, h.reached, fun _ => Discipline.good_free st'⟩⟩

theorem Proceeds.grows (h : Proceeds s s') : s.2.Grows s'.2 := h.upholds.store.grown.grows

/-- What was read of the store is read again. -/
theorem Proceeds.carries (h : Proceeds s s') : s.2.Carries s'.2 := h.upholds.store.grown.carries

theorem fit_typed {st : Store} {t : TypeId} (h : t < st.size) : Discipline.Fit .typed st t :=
  ⟨fun _ => h, fun h => by cases h⟩

namespace Proper

variable (hp : Proper s)

include hp

theorem later (h : Proceeds s s') : Proper s' where
  ready := h.upholds.ready hp.ready
  resting := hp.resting.later h.turns
  positive := h.turns.limits ▸ hp.positive
  reached := h.upholds.store.reached hp.reached

theorem tidy : s.2.Tidy := hp.ready.good.tidy rfl

theorem anchored : s.2.Anchored := hp.ready.good.anchored fun h => by cases h

theorem wellFormed : s.2.WellFormed := hp.tidy.wellFormed hp.anchored

theorem recalls_lt {task : Task} {a : TypeId} (h : Recalls s.1 task a) : a < s.2.size :=
  (hp.ready.memo h rfl).valid fun h => by cases h

end Proper

theorem proper_start {st : Store} (hg : Discipline.Good .typed st) (hr : st.Reached) :
    Proper (start, st) :=
  ⟨⟨hg, fun h _ => by cases h⟩, .blank rfl rfl rfl fun _ => trivial, Limits.positive_evaluation, hr⟩

theorem Used.proper (h : Used .typed s) : Proper s ∧ s.1.limits = .evaluation := by
  have htyped : Discipline.typed ≠ .solid := fun h => by cases h
  induction h with
  | start => exact ⟨proper_start (Discipline.good_initial _) .initial, rfl⟩
  | operation op _ ho ih =>
    obtain ⟨hp, hl⟩ := ih
    have hout := Operation.outcome htyped hp.ready.good ho
    refine ⟨⟨⟨hout.good hp.ready.good, fun hm ht => ?_⟩, hp.resting, hp.positive,
      hout.reached hp.reached⟩, hl⟩
    have hlt := (hp.ready.memo hm ht).valid fun h => by cases h
    exact fit_typed (Nat.lt_of_lt_of_le hlt hout.carries.size)
  | call call _ hc ih =>
    obtain ⟨hp, hl⟩ := ih
    have hturns := call.turns hp.resting
    have hupholds := (Call.worked htyped hp.ready hc).1.upholds htyped hp.ready
    exact ⟨hp.later ⟨hupholds, hturns⟩, hturns.limits.trans hl⟩
  | clear _ ih =>
    obtain ⟨hp, hl⟩ := ih
    refine ⟨⟨⟨hp.ready.good, fun hm _ => ?_⟩,
      .blank rfl rfl hp.resting.limits hp.resting.observed, hp.positive, hp.reached⟩, hl⟩
    cases hm

def applyToMember (room : Nat) : Operator → TypeId → EvalM TypeId
  | .conditional id => conditionalMember id
  | .mapping id => descend (mapMember id) (fun _ => return .never) room

theorem leads_distributive {F : State → State → Prop} {Q : TypeId → State → Prop}
    {operator : Operator} (hd : s.2.Distributive operator) {v : TypeId}
    (h : Leads F (Store.distribute v (applyToMember s.1.limits.depth operator)) s Q) :
    Leads F (applyOperator operator v) s Q := by
  cases operator with
  | conditional id =>
    have hdistributive : (s.2.conditional id).distributive = true := hd
    apply leads_getStore
    rw [hdistributive]
    exact h
  | mapping id => exact leads_get h

variable {operator : Operator} {v a : TypeId}

/-- The answer for one member is remembered. -/
theorem proceeds_member (hp : Proper s) (operator : Operator) (room : Nat) {x : TypeId}
    (hx : x < s.2.size) :
    Leads Proceeds (applyToMember room operator x) s fun a s' => Recalls s'.1 ⟨operator, x⟩ a := by
  have htyped : Discipline.typed ≠ .solid := fun h => by cases h
  have hb := hp.resting.toBalanced
  cases operator with
  | conditional id =>
    have hturns := turns_conditionalMember hb hp.resting.opened.mappings id x
    exact ⟨⟨(leads_conditionalMember htyped hp.ready id (fit_typed hx)).1, hturns.1⟩,
      hturns.2 hp.resting.idle hp.positive⟩
  | mapping id =>
    have hturns := turns_descend hb hp.resting.opened id room x
    exact ⟨⟨(leads_descend htyped hp.ready id room (fit_typed hx)).1, hturns.1⟩,
      hturns.2 hp.resting.idle hp.positive⟩

/-- The union is built once and found again. -/
theorem proceeds_mkUnion (hp : Proper s) {types : List TypeId} (ht : ∀ t ∈ types, t < s.2.size) :
    Leads Proceeds (liftM (Store.mkUnion types) : EvalM TypeId) s fun a s' =>
      s'.1 = s.1 ∧ (Store.mkUnion types).run s'.2 = (a, s'.2) := by
  have hruns := Discipline.runs_mkUnion hp.ready.good fun t h => fit_typed (ht t h)
  exact leads_lift (.lift hruns.leads.1)
    ⟨rfl, Store.repeats_mkUnion hp.wellFormed ht _ (Store.Extends.refl _).grows⟩

def Gathered (operator : Operator) (subject a : TypeId) (s : State) : Prop :=
  ∃ answers, List.Forall₂ (fun x b => Recalls s.1 ⟨operator, x⟩ b)
    (s.2.unionMembers subject) answers ∧
    (Store.mkUnion answers).run s.2 = (a, s.2)

section Gathered

variable {answers : List TypeId}
variable (h : List.Forall₂ (fun x b => Recalls s.1 ⟨operator, x⟩ b) (s.2.unionMembers v) answers)

include h

theorem gathered_lt (hp : Proper s) {b : TypeId} (hb : b ∈ answers) : b < s.2.size := by
  obtain ⟨x, _, hx⟩ := mem_right_of_forall₂ h hb
  exact hp.recalls_lt hx

/-- There is one answer for each member. -/
theorem mem_gathered {b : TypeId} :
    b ∈ answers ↔ ∃ x ∈ s.2.unionMembers v, Recalls s.1 ⟨operator, x⟩ b := by
  refine ⟨mem_right_of_forall₂ h, fun ⟨x, hx, hb⟩ => ?_⟩
  obtain ⟨c, hc, hr⟩ := mem_right_of_forall₂ h.flip hx
  cases hb.symm.trans hr
  exact hc

end Gathered

/-- The union of the answers stays what it is while further tasks are worked on. -/
theorem Gathered.later (hp : Proper s) (hv : v < s.2.size) (h : Gathered operator v a s)
    (hs : Proceeds s s') : Gathered operator v a s' := by
  obtain ⟨answers, hall, hunion⟩ := h
  refine ⟨answers, ?_, ?_⟩
  · rw [hp.wellFormed.unionMembers_grows hs.grows hv]
    exact hall.imp fun _ _ hr => hs.turns.done hr
  · have hagain := Store.repeats_mkUnion hp.wellFormed (fun b hb => gathered_lt hall hp hb) s'.2
    rw [hunion] at hagain
    exact hagain hs.grows

/-- An operator answers a type with the union of what it answers the members with. -/
theorem proceeds_distributive (hp : Proper s) (hd : s.2.Distributive operator) (hv : v < s.2.size) :
    Leads Proceeds (applyOperator operator v) s (Gathered operator v) := by
  have hmembers {s' : State} (hs : Proceeds s s') : s'.2.unionMembers v = s.2.unionMembers v :=
    hp.wellFormed.unionMembers_grows hs.grows hv
  apply leads_distributive hd
  apply Store.leads_distribute Prod.snd (A := fun x b s => Recalls s.1 ⟨operator, x⟩ b) rfl
  · intro x b s₁ s₂ _ h₂ hr
    exact h₂.turns.done hr
  · intro x hx s' hs
    have hlt := hp.wellFormed.lt_size_of_unionMembers hv hx
    exact proceeds_member (hp.later hs) operator _ (Nat.lt_of_lt_of_le hlt hs.grows.size)
  · intro hnone
    refine ⟨[], ?_, rfl⟩
    rw [hnone]
    exact .nil
  · intro x b s' hs hone hr
    have hp' := hp.later hs
    refine ⟨[b], ?_, Store.mkUnion_self hp'.tidy hp'.reached.shared hp'.anchored b⟩
    rw [hmembers hs, hone]
    exact .cons hr .nil
  · intro answers s' hs _ hall
    have hall : List.Forall₂ (fun x b => Recalls s'.1 ⟨operator, x⟩ b)
        (s'.2.unionMembers v) answers :=
      (hmembers hs).symm ▸ hall
    apply (proceeds_mkUnion (hp.later hs) fun b hb => gathered_lt hall (hp.later hs) hb).mono
    intro a s'' hs' ⟨he, hunion⟩
    refine ⟨answers, ?_, hunion⟩
    rw [he, hmembers (Evolution.trans hs hs'), ← hmembers hs]
    exact hall

/-- What a union is answered with, its parts are answered with together. -/
theorem Gathered.union (hp : Proper s) {x₁ x₂ a₁ a₂ : TypeId}
    (hmembers : ∀ m, m ∈ s.2.unionMembers v ↔ m ∈ s.2.unionMembers x₁ ∨ m ∈ s.2.unionMembers x₂)
    (h : Gathered operator v a s) (h₁ : Gathered operator x₁ a₁ s)
    (h₂ : Gathered operator x₂ a₂ s) :
    (Store.mkUnion [a₁, a₂]).run s.2 = (a, s.2) := by
  obtain ⟨answers, hall, hunion⟩ := h
  obtain ⟨answers₁, hall₁, hunion₁⟩ := h₁
  obtain ⟨answers₂, hall₂, hunion₂⟩ := h₂
  apply Store.mkUnion_pair hp.tidy hp.reached.shared hp.anchored (fun _ => gathered_lt hall₁ hp)
    (fun _ => gathered_lt hall₂ hp) (fun _ => gathered_lt hall hp) hunion₁ hunion₂ hunion
  have hanswers (b : TypeId) : b ∈ answers ↔ b ∈ answers₁ ∨ b ∈ answers₂ := by
    simp only [mem_gathered hall, mem_gathered hall₁, mem_gathered hall₂, hmembers, or_and_right,
      exists_or]
  intro m
  simp only [Store.mem_flat, hanswers, or_and_right, exists_or]

theorem proceeds_distributives (hp : Proper s) (hd : s.2.Distributive operator)
    {subjects : List TypeId} (hx : ∀ x ∈ subjects, x < s.2.size) :
    Leads Proceeds (subjects.mapM (applyOperator operator)) s fun answers s' =>
      List.Forall₂ (fun x a => Gathered operator x a s') subjects answers := by
  have hall : Leads Proceeds (subjects.mapM (applyOperator operator)) s fun answers s' =>
      List.Forall₂ (fun x a => x < s'.2.size ∧ Gathered operator x a s') subjects answers := by
    apply Leads.mapM
    · intro x a s₁ s₂ h₁ h₂ ⟨hlt, h⟩
      exact ⟨Nat.lt_of_lt_of_le hlt h₂.grows.size, h.later (hp.later h₁) hlt h₂⟩
    · intro x hm s' hs
      have hlt := Nat.lt_of_lt_of_le (hx x hm) hs.grows.size
      exact (proceeds_distributive (hp.later hs) (hd.later hs.carries) hlt).mono fun _ _ h' hg =>
        ⟨Nat.lt_of_lt_of_le hlt h'.grows.size, hg⟩
  exact hall.mono fun _ _ _ h => h.imp fun _ _ h => h.2

/-- A distributive conditional or a mapping answers a union with the union of what it answers the
united types with, if the union has lost none of their members, and `never` with `never`. The types
may be asked for in any order, among others, of an evaluator with any history. -/
theorem applyOperator_union (h : Used .typed s) (hd : s.2.Distributive operator) {x₁ x₂ : TypeId}
    (hx₁ : x₁ < s.2.size) (hx₂ : x₂ < s.2.size) :
    (Action.run (applyOperator operator .never) s).1 = .never ∧
    let union := (Store.mkUnion [x₁, x₂]).run s.2
    (∀ m, m ∈ union.2.unionMembers union.1 ↔ m ∈ s.2.unionMembers x₁ ∨ m ∈ s.2.unionMembers x₂) →
    ∀ subjects : List TypeId, (∀ x ∈ subjects, x < union.2.size) →
    let answers := Action.run (subjects.mapM (applyOperator operator)) (s.1, union.2)
    answers.1.length = subjects.length ∧
    ∀ a a₁ a₂, (union.1, a) ∈ subjects.zip answers.1 → (x₁, a₁) ∈ subjects.zip answers.1 →
      (x₂, a₂) ∈ subjects.zip answers.1 →
      (Store.mkUnion [a₁, a₂]).run answers.2.2 = (a, answers.2.2) := by
  have hp := h.proper.1
  refine ⟨?_, fun hmembers subjects hx => ?_⟩
  · have hnever := proceeds_distributive hp hd (hp.anchored.founded.solid .never).lt_size
    obtain ⟨answers, hall, hunion⟩ := hnever.2
    cases hall
    exact (congrArg Prod.fst hunion).symm
  · have hbuilt : Proceeds s (s.1, ((Store.mkUnion [x₁, x₂]).run s.2).2) :=
      (proceeds_mkUnion hp (by simp [hx₁, hx₂])).1
    obtain ⟨hs, hall⟩ := proceeds_distributives (hp.later hbuilt) (hd.later hbuilt.carries) hx
    refine ⟨hall.length_eq.symm, fun a a₁ a₂ ha ha₁ ha₂ => ?_⟩
    obtain ⟨_, hgathered⟩ := List.forall₂_iff_zip.mp hall
    apply (hgathered ha).union ((hp.later hbuilt).later hs) _ (hgathered ha₁) (hgathered ha₂)
    intro m
    rw [(hp.later hbuilt).wellFormed.unionMembers_grows hs.grows (hx _ (List.of_mem_zip ha).1),
      hp.wellFormed.unionMembers_grows (hbuilt.grows.trans hs.grows) hx₁,
      hp.wellFormed.unionMembers_grows (hbuilt.grows.trans hs.grows) hx₂]
    exact hmembers m

/-- Trees, mapped to all depths. -/
def mappedTrees : State := (Action.run (Call.mapping 0 12).act (start, trees)).2

theorem applyOperator_union_mappedTrees :
    Used .typed mappedTrees ∧ mappedTrees.2.Distributive (.mapping 0) ∧
    let union := (Store.mkUnion [13, 14]).run mappedTrees.2
    (∀ m, m ∈ union.2.unionMembers union.1 ↔
      m ∈ mappedTrees.2.unionMembers 13 ∨ m ∈ mappedTrees.2.unionMembers 14) ∧
    let answers := Action.run ([14, union.1, 13].mapM (applyOperator (.mapping 0)))
      (mappedTrees.1, union.2)
    answers.1 = [18, 22, 15] ∧ (Store.mkUnion [15, 18]).run answers.2.2 = (22, answers.2.2) := by
  have hused : Used .typed mappedTrees := by
    have haccepted : Operation.AllAccepted .typed .initial [.build .reserve,
        .build (.union [12, .null]),
        .build (.array 12),
        .build (.defineObject 12 { fields := [{ name := "value", type := .string },
          { name := "left", type := 13 }, { name := "children", type := 14 }] }),
        .build (.mapping optionalDeep)] := Operation.allAccepted_of_builds (by decide +kernel)
    apply Used.call (.mapping 0 12)
    · exact Used.start.operations haccepted
    · refine ⟨fun t ht => ?_, fun _ _ h => ?_, fun _ => trivial⟩
      · rw [List.mem_singleton.mp ht]
        exact fit_typed (by decide +kernel)
      · cases h
        exact (by decide +kernel : 0 < trees.mappings.items.length)
  have hdistributive : mappedTrees.2.Distributive (.mapping 0) := trivial
  have hmembers (m : TypeId) :
      m ∈ ((Store.mkUnion [13, 14]).run mappedTrees.2).2.unionMembers
          ((Store.mkUnion [13, 14]).run mappedTrees.2).1 ↔
        m ∈ mappedTrees.2.unionMembers 13 ∨ m ∈ mappedTrees.2.unionMembers 14 := by
    have hunion : ((Store.mkUnion [13, 14]).run mappedTrees.2).2.unionMembers
        ((Store.mkUnion [13, 14]).run mappedTrees.2).1 =
          mappedTrees.2.unionMembers 13 ++ mappedTrees.2.unionMembers 14 := by decide +kernel
    rw [hunion, List.mem_append]
  refine ⟨hused, hdistributive, hmembers, by decide +kernel, ?_⟩
  obtain ⟨_, hanswers⟩ :=
    (applyOperator_union hused hdistributive (by decide +kernel) (by decide +kernel)).2 hmembers
      [14, ((Store.mkUnion [13, 14]).run mappedTrees.2).1, 13] (by decide +kernel)
  exact hanswers 22 15 18 (by decide +kernel) (by decide +kernel) (by decide +kernel)

end Evaluator

end TypeCalculus
