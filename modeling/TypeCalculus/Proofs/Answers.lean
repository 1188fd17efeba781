import TypeCalculus.Proofs.Tasks

namespace TypeCalculus

namespace Store

variable {st : Store}

/-- Equal types were interned once. -/
theorem Shared.made_unique (h : st.Shared)
    (hp : ∀ {t : TypeId} {node : Node}, st.lookup t = some node → st.Placed node) {f : Form}
    {t u : TypeId} (ht : Made f t st) (hu : Made f u st) : t = u := by
  obtain ⟨node, hn, hnode⟩ := lookup_of_form ht.form
  obtain ⟨other, ho, hother⟩ := lookup_of_form hu.form
  obtain rfl := h.node_unique (hp hn) (hp ho) (hnode.trans hother.symm)
  exact h.indexed.cell_inj (interned_iff.mpr ⟨hn, ht.interned⟩) (interned_iff.mpr ⟨ho, hu.interned⟩)

end Store

namespace Evaluator

open Store (Made)

section Answers

variable (st : Store) (A : Task → TypeId → Prop)

inductive Gathers (P : TypeId → TypeId → Prop) (v : TypeId) : TypeId → Prop
  | none (h : st.unionMembers v = []) : Gathers P v .never
  | one {x b : TypeId} (h : st.unionMembers v = [x]) (hx : P x b) : Gathers P v b
  | many {bs : List TypeId} {b : TypeId} (hlen : 2 ≤ (st.unionMembers v).length)
    (h : List.Forall₂ P (st.unionMembers v) bs) (hb : (Store.mkUnion bs).run st = (b, st)) :
    Gathers P v b

def ConditionalAnswer (id : ConditionalId) (v b : TypeId) : Prop :=
  if (st.conditional id).distributive then Gathers st (fun x => A ⟨.conditional id, x⟩) v b
  else A ⟨.conditional id, v⟩ b

def InnerAnswer (id : MappingId) (x b : TypeId) : Prop :=
  if st.isContainer x then A ⟨.mapping id, x⟩ b else b = x

def ValueAnswer (id : MappingId) (v b : TypeId) : Prop :=
  match (st.mapping id).value with
  | .keep => b = v
  | .conditional c => ConditionalAnswer st A c v b
  | .deep => Gathers st (InnerAnswer st A id) v b

inductive Settles (limits : Limits) : Task → TypeId → Prop
  | chosen {id : ConditionalId} {x a : TypeId}
    (h : (branch limits (st.conditional id) x).run st = (a, st)) :
    Settles limits ⟨.conditional id, x⟩ a
  | mapped {id : MappingId} {n a : TypeId} {f y : Form} (hf : st.form? n = some f)
    (hy : Mapped (st.mapping id) (ValueAnswer st A id) f y) (ha : Made y a st) :
    Settles limits ⟨.mapping id, n⟩ a
  | unmapped {id : MappingId} {n : TypeId} (h : Unmapped (st.mapping id) (st.form? n)) :
    Settles limits ⟨.mapping id, n⟩ .never

/-- All answers to clean tasks are right. -/
def Solved (limits : Limits) : Prop :=
  ∀ task a, st.Clean task → A task a → Settles st A limits task a ∧ st.Solid a

def OperatorAnswer : Operator → TypeId → TypeId → Prop
  | .conditional id => ConditionalAnswer st A id
  | .mapping id => Gathers st fun x => A ⟨.mapping id, x⟩

end Answers

section Carries

variable {st st' : Store} {A A' : Task → TypeId → Prop}
variable (h : st.Carries st') (ha : st.Anchored) (hl : st.Linked)

include h ha hl

/-- The union of answers is found again in a wider store. -/
theorem Gathers.carries {P P' : TypeId → TypeId → Prop} {v b : TypeId} (hv : st.Solid v)
    (hP : ∀ x ∈ st.unionMembers v, ∀ b, P x b → P' x b ∧ st.Solid b) (hg : Gathers st P v b) :
    Gathers st' P' v b ∧ st.Solid b := by
  have hmembers := hv.unionMembers_widens ha h.toWidens
  cases hg with
  | none hn => exact ⟨.none (hmembers.trans hn), ha.founded.solid .never⟩
  | @one x b hx hb =>
    obtain ⟨hb, hsolid⟩ := hP x (by simp [hx]) b hb
    exact ⟨.one (hmembers.trans hx) hb, hsolid⟩
  | @many bs b hlen hbs hb =>
    have hsolid : ∀ b ∈ bs, Discipline.Fit .solid st b := by
      intro b hb
      obtain ⟨x, hx, hxb⟩ := mem_right_of_forall₂ hbs hb
      have hs := (hP x hx b hxb).2
      exact ⟨fun _ => hs.lt_size, fun _ => hs⟩
    have hrun : Action.run (Store.mkUnion bs) st = (b, st) := hb
    have hruns := Discipline.runs_mkUnion ⟨fun _ => ha, fun _ => hl, fun h => by cases h⟩ hsolid
    constructor
    · apply Gathers.many (hmembers ▸ hlen)
      · rw [hmembers]
        exact forall₂_of_mem hbs fun x hx b hb => (hP x hx b hb).1
      · have hecho := hruns.echo st'
        rw [hrun] at hecho
        exact hecho (Discipline.Firm.again ⟨rfl, h.toWidens⟩)
    · have hfit := hruns.leads.2
      rw [hrun] at hfit
      exact hfit.solid rfl

variable (hA : ∀ task, st.Clean task → ∀ a, A task a → A' task a ∧ st.Solid a)

include hA

theorem ConditionalAnswer.carries {id : ConditionalId} (hid : st.SolidConditional id) {v b : TypeId}
    (hv : st.Solid v) (hb : ConditionalAnswer st A id v b) :
    ConditionalAnswer st' A' id v b ∧ st.Solid b := by
  unfold ConditionalAnswer at hb ⊢
  rw [h.conditional hid.has]
  split
  · rename_i hd
    rw [if_pos hd] at hb
    exact hb.carries h ha hl hv fun x hx =>
      hA ⟨.conditional id, x⟩ ⟨hid, hv.members hx⟩
  · rename_i hd
    rw [if_neg hd] at hb
    exact hA ⟨.conditional id, v⟩ ⟨hid, hv⟩ b hb

omit ha hl in
theorem InnerAnswer.carries {id : MappingId} {x b : TypeId} (hc : st.Clean ⟨.mapping id, x⟩)
    (hb : InnerAnswer st A id x b) : InnerAnswer st' A' id x b ∧ st.Solid b := by
  unfold InnerAnswer at hb ⊢
  rw [Store.isContainer_carries h hc.subject]
  split
  · rename_i hk
    rw [if_pos hk] at hb
    exact hA ⟨.mapping id, x⟩ hc b hb
  · rename_i hk
    rw [if_neg hk] at hb
    exact ⟨hb, hb ▸ hc.subject⟩

theorem ValueAnswer.carries {id : MappingId} {n v b : TypeId} (hc : st.Clean ⟨.mapping id, n⟩)
    (hv : st.Solid v) (hb : ValueAnswer st A id v b) : ValueAnswer st' A' id v b ∧ st.Solid b := by
  unfold ValueAnswer at hb ⊢
  rw [h.mapping hc.operator.1]
  split
  · rename_i he
    simp only [he] at hb
    exact ⟨hb, hb ▸ hv⟩
  · rename_i c he
    simp only [he] at hb
    exact hb.carries h ha hl hA (hc.operator.2 c he) hv
  · rename_i he
    simp only [he] at hb
    apply hb.carries h ha hl hv
    intro x hx b hb
    exact hb.carries h hA ⟨hc.operator, hv.members hx⟩

omit hA hl in
theorem made_carries {f : Form} {t : TypeId} (hm : Made f t st) : Made f t st' := by
  obtain ⟨node, hn, rfl⟩ := Store.lookup_of_form hm.form
  have hcell := h.interned (Store.interned_iff.mpr ⟨hn, hm.interned⟩)
  have hmade := Store.made_at hcell
  rw [h.form (ha.placed hn)] at hmade
  exact hmade

/-- Once right, an answer is right in every wider store. -/
theorem Settles.carries {limits : Limits} {task : Task} {a : TypeId} (hc : st.Clean task)
    (hs : Settles st A limits task a) : Settles st' A' limits task a := by
  cases hs with
  | @chosen id x a hrun =>
    have hid := hc.operator
    have hfit {t : TypeId} (ht : st.Solid t) : Discipline.Fit .solid st t :=
      ⟨fun _ => ht.lt_size, fun _ => ht⟩
    have hrun : Action.run (branch limits (st.conditional id) x) st = (a, st) := hrun
    have hruns := runs_branch (r := Discipline.rules .solid)
      ⟨fun _ => ha, fun _ => hl, fun h => by cases h⟩ (hfit hc.subject) limits
      ⟨hfit hid.pattern, hfit hid.yes, hfit hid.no⟩
    have hecho := hruns.echo st'
    rw [hrun] at hecho
    apply Settles.chosen
    rw [h.conditional hid.has]
    exact hecho ⟨rfl, h.toWidens⟩
  | @mapped id n a f y hf hy hm =>
    have hform := (hc.subject.form_widens ha h.toWidens).trans hf
    apply Settles.mapped hform _ (made_carries h ha hm)
    rw [h.mapping hc.operator.1]
    apply hy.mono_values
    intro v hv b hb
    have hv : v ∈ st.valuesOf id n := by simp [Store.valuesOf, hf, hv]
    exact (hb.carries h ha hl hA hc (Store.mem_valuesOf ha hc.subject hv).1).1
  | @unmapped id n hu =>
    apply Settles.unmapped
    rw [h.mapping hc.operator.1, hc.subject.form_widens ha h.toWidens]
    exact hu

theorem OperatorAnswer.carries {operator : Operator} {x a : TypeId} (hc : st.Clean ⟨operator, x⟩)
    (hx : OperatorAnswer st A operator x a) : OperatorAnswer st' A' operator x a := by
  cases operator with
  | conditional id => exact (ConditionalAnswer.carries h ha hl hA hc.operator hc.subject hx).1
  | mapping id =>
    refine (Gathers.carries h ha hl hc.subject (fun y hy => ?_) hx).1
    exact hA ⟨.mapping id, y⟩ ⟨hc.operator, Store.Solid.members hc.subject hy⟩

omit hA in
/-- Right answers to tasks that the store knows stay right. -/
theorem Solved.carries {limits : Limits} (hs : Solved st A limits)
    (hk : ∀ task a, A task a → st.Knows task) : Solved st' A limits := by
  intro task a hc hA
  have hc := hc.of_carries h ha hl (hk task a hA)
  obtain ⟨hsettles, hsolid⟩ := hs task a hc hA
  refine ⟨hsettles.carries h ha hl (fun task hc a hA => ⟨hA, (hs task a hc hA).2⟩) hc, ?_⟩
  exact hsolid.widens ha h.toWidens

end Carries

section Unique

variable {st : Store} {A A' : Task → TypeId → Prop}

theorem Gathers.unique {P P' : TypeId → TypeId → Prop} {v b c : TypeId} (h : Gathers st P v b)
    (h' : Gathers st P' v c) (hP : ∀ x ∈ st.unionMembers v, ∀ b c, P x b → P' x c → b = c) :
    b = c := by
  cases h with
  | none hn =>
    cases h' with
    | none => rfl
    | one hx => simp [hn] at hx
    | many hlen => simp [hn] at hlen
  | one hx hb =>
    cases h' with
    | none hn => simp [hn] at hx
    | one hx' hc =>
      cases hx.symm.trans hx'
      exact hP _ (by simp [hx]) _ _ hb hc
    | many hlen => simp [hx] at hlen
  | many hlen hbs hb =>
    cases h' with
    | none hn => simp [hn] at hlen
    | one hx => simp [hx] at hlen
    | many _ hcs hc =>
      rw [forall₂_unique hbs hcs hP, hc] at hb
      exact (congrArg Prod.fst hb).symm

theorem ConditionalAnswer.unique {id : ConditionalId} {v b c : TypeId}
    (h : ConditionalAnswer st A id v b) (h' : ConditionalAnswer st A' id v c)
    (hA : ∀ x ∈ st.targets id v, ∀ b c, A ⟨.conditional id, x⟩ b →
      A' ⟨.conditional id, x⟩ c → b = c) :
    b = c := by
  unfold ConditionalAnswer at h h'
  unfold Store.targets at hA
  split at h
  · rename_i hd
    rw [if_pos hd] at h' hA
    exact h.unique h' hA
  · rename_i hd
    rw [if_neg hd] at h' hA
    exact hA v (List.mem_singleton.mpr rfl) _ _ h h'

theorem ValueAnswer.unique {id : MappingId} {v b c : TypeId} (h : ValueAnswer st A id v b)
    (h' : ValueAnswer st A' id v c)
    (hA : ∀ task ∈ st.valueTasks id v, ∀ b c, A task b → A' task c → b = c) : b = c := by
  unfold ValueAnswer at h h'
  unfold Store.valueTasks at hA
  split at h
  · rename_i he
    simp only [he] at h'
    rw [h, h']
  · rename_i k he
    simp only [he] at h' hA
    exact h.unique h' fun x hx => hA _ (List.mem_map_of_mem hx)
  · rename_i he
    simp only [he] at h' hA
    apply h.unique h'
    intro x hx b c hb hc
    unfold InnerAnswer at hb hc
    split at hb
    · rename_i hk
      rw [if_pos hk] at hc
      exact hA _ (List.mem_map_of_mem (List.mem_filter.mpr ⟨hx, hk⟩)) _ _ hb hc
    · rename_i hk
      rw [if_neg hk] at hc
      rw [hb, hc]

theorem Mapped.not_unmapped {m : Mapping} {R : TypeId → TypeId → Prop} {f y : Form}
    (h : Mapped m R f y) (hu : Unmapped m (some f)) : False := by
  have hf := hu f rfl h.source
  cases h with
  | object => exact hf.2 _ rfl
  | array hk => exact hf.1 hk
  | tuple hk => exact hf.1 hk

/-- A task has one right answer, given the answers to the tasks that it leads to. -/
theorem Settles.unique (hsh : st.Shared) (ha : st.Anchored) {limits : Limits} {task : Task}
    {a b : TypeId} (h : Settles st A limits task a) (h' : Settles st A' limits task b)
    (hA : ∀ sub ∈ st.subtasks task, ∀ a b, A sub a → A' sub b → a = b) : a = b := by
  cases h with
  | chosen hrun =>
    cases h' with
    | chosen hrun' =>
      rw [hrun] at hrun'
      exact congrArg Prod.fst hrun'
  | @mapped id n a f y hf hy hm =>
    cases h' with
    | mapped hf' hy' hm' =>
      cases hf.symm.trans hf'
      have hsame := hy.unique hy' fun v hv b c hb hc => hb.unique hc fun sub hsub => by
        apply hA sub
        apply List.mem_flatMap.mpr
        exact ⟨v, by simp [Store.valuesOf, hf, hv], hsub⟩
      exact hsh.made_unique ha.placed hm (hsame ▸ hm')
    | unmapped hu => exact (hy.not_unmapped (hf ▸ hu)).elim
  | unmapped hu =>
    cases h' with
    | mapped hf' hy' => exact (hy'.not_unmapped (hf' ▸ hu)).elim
    | unmapped => rfl

/-- Two sets of right answers agree. -/
theorem Solved.agree (hsh : st.Shared) (ha : st.Anchored) {limits : Limits} (h : Solved st A limits)
    (h' : Solved st A' limits) {task : Task} (hc : st.Clean task) {a b : TypeId} (hA : A task a)
    (hB : A' task b) : a = b := by
  -- the tasks that a task leads to have smaller subjects
  obtain ⟨n, hn⟩ : ∃ n, task.subject = n := ⟨_, rfl⟩
  induction n using Nat.strong_induction_on generalizing task a b with
  | _ n ih =>
    apply (h task a hc hA).1.unique hsh ha (h' task b hc hB).1
    intro sub hsub a b hA hB
    obtain ⟨hclean, hlt⟩ := hc.subtask ha hsub
    exact ih _ (hn ▸ hlt) hclean hA hB rfl

/-- Whoever knows right answers only comes to the same answer. -/
theorem OperatorAnswer.agree (hsh : st.Shared) (ha : st.Anchored) {limits : Limits}
    (h : Solved st A limits) (h' : Solved st A' limits) {operator : Operator} {x a b : TypeId}
    (hc : st.Clean ⟨operator, x⟩) (hA : OperatorAnswer st A operator x a)
    (hB : OperatorAnswer st A' operator x b) : a = b := by
  cases operator with
  | conditional id =>
    apply ConditionalAnswer.unique hA hB
    intro y hy a b
    have hclean : st.Clean ⟨.conditional id, y⟩ :=
      ⟨hc.operator, (Store.mem_targets hc.subject hy ha).1⟩
    exact h.agree hsh ha h' hclean
  | mapping id =>
    apply Gathers.unique hA hB
    intro y hy a b
    have hclean : st.Clean ⟨.mapping id, y⟩ := ⟨hc.operator, Store.Solid.members hc.subject hy⟩
    exact h.agree hsh ha h' hclean

end Unique

section Answered

variable {st : Store} {A : Task → TypeId → Prop}

theorem Gathers.answered {P : TypeId → TypeId → Prop} {v b : TypeId} (h : Gathers st P v b)
    {x : TypeId} (hx : x ∈ st.unionMembers v) : ∃ b, P x b := by
  cases h with
  | none hn => simp [hn] at hx
  | one hy hb =>
    rw [hy, List.mem_singleton] at hx
    exact ⟨b, hx ▸ hb⟩
  | many _ hbs _ =>
    obtain ⟨b, _, hb⟩ := mem_left_of_forall₂ hbs hx
    exact ⟨b, hb⟩

theorem ValueAnswer.answered {id : MappingId} {v b : TypeId} (h : ValueAnswer st A id v b)
    {sub : Task} (hs : sub ∈ st.valueTasks id v) : ∃ b, A sub b := by
  unfold ValueAnswer at h
  unfold Store.valueTasks at hs
  split at h
  · rename_i he
    simp [he] at hs
  · rename_i c he
    simp only [he] at hs
    obtain ⟨x, hx, rfl⟩ := List.mem_map.mp hs
    unfold ConditionalAnswer at h
    unfold Store.targets at hx
    split at h
    · rename_i hd
      rw [if_pos hd] at hx
      exact h.answered hx
    · rename_i hd
      rw [if_neg hd, List.mem_singleton] at hx
      exact ⟨b, hx ▸ h⟩
  · rename_i he
    simp only [he] at hs
    obtain ⟨x, hx, rfl⟩ := List.mem_map.mp hs
    obtain ⟨hx, hk⟩ := List.mem_filter.mp hx
    obtain ⟨b, hb⟩ := h.answered hx
    exact ⟨b, (if_pos hk : InnerAnswer st A id x b = _).mp hb⟩

/-- A right answer rests on answers to all the tasks that its task leads to. -/
theorem Settles.answered {limits : Limits} {task : Task} {a : TypeId}
    (h : Settles st A limits task a) {sub : Task} (hs : sub ∈ st.subtasks task) : ∃ b, A sub b := by
  cases h with
  | chosen => cases hs
  | mapped hf hy _ =>
    obtain ⟨v, hv, hs⟩ := List.mem_flatMap.mp hs
    simp only [Store.valuesOf, hf, Option.toList_some, List.flatMap_cons, List.flatMap_nil,
      List.append_nil] at hv
    obtain ⟨b, hb⟩ := hy.answered hv
    exact hb.answered hs
  | unmapped hu =>
    obtain ⟨v, hv, _⟩ := List.mem_flatMap.mp hs
    rw [Store.valuesOf, hu.values] at hv
    cases hv

end Answered

end Evaluator

end TypeCalculus
