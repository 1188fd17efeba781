import TypeCalculus.Proofs.EvaluatorSteps
import TypeCalculus.Proofs.HashConsing

namespace TypeCalculus

namespace Store

structure Carries (st st' : Store) : Prop extends st.Widens st' where
  conditionals : st.conditionals.Extends st'.conditionals
  mappings : st.mappings.Extends st'.mappings

structure SolidConditional (st : Store) (id : ConditionalId) : Prop where
  has : st.Has (.conditional id)
  pattern : st.Solid (st.conditional id).pattern
  yes : st.Solid (st.conditional id).yes
  no : st.Solid (st.conditional id).no

def SolidOperator (st : Store) : Operator → Prop
  | .conditional id => st.SolidConditional id
  | .mapping id =>
    st.Has (.mapping id) ∧ ∀ c, (st.mapping id).value = .conditional c → st.SolidConditional c

/-- No placeholder and no foreign place can be reached from the subject or from the operator. -/
structure Clean (st : Store) (task : Task) : Prop where
  operator : st.SolidOperator task.operator
  subject : st.Solid task.subject

structure Knows (st : Store) (task : Task) : Prop where
  operator : st.Has task.operator
  subject : task.subject < st.size

def isContainer (st : Store) (t : TypeId) : Bool := (st.lookup t).any Node.isContainer

def targets (st : Store) (id : ConditionalId) (t : TypeId) : List TypeId :=
  if (st.conditional id).distributive then st.unionMembers t else [t]

variable {st st' : Store}

theorem Carries.refl (st : Store) : st.Carries st := ⟨.refl st, .refl _, .refl _⟩

theorem Carries.trans {a b c : Store} (h : a.Carries b) (h' : b.Carries c) : a.Carries c :=
  ⟨h.toWidens.trans h'.toWidens, h.conditionals.trans h'.conditionals, h.mappings.trans h'.mappings⟩

theorem Extends.carries (h : st.Extends st') : st.Carries st' :=
  ⟨h.widens, h.conditionals, h.mappings⟩

theorem Clean.knows {task : Task} (h : st.Clean task) : st.Knows task := by
  refine ⟨?_, h.subject.lt_size⟩
  obtain ⟨operator, subject⟩ := task
  cases operator with
  | conditional id => exact h.operator.has
  | mapping id => exact h.operator.1

theorem Linked.has (hl : st.Linked) {id : MappingId} (hid : st.Has (.mapping id))
    {c : ConditionalId} (he : (st.mapping id).value = .conditional c) :
    st.Has (.conditional c) := by
  have hget : st.mappings.get? id = some st.mappings.items[id] := List.getElem?_eq_getElem hid
  apply hl (st.mapping id) _ c he
  rw [Store.mapping, hget]
  exact List.getElem_mem _

section Carries

variable (h : st.Carries st')

include h

theorem Carries.has {operator : Operator} (ho : st.Has operator) : st'.Has operator := by
  cases operator with
  | conditional id => exact Nat.lt_of_lt_of_le ho h.conditionals.items.length_le
  | mapping id => exact Nat.lt_of_lt_of_le ho h.mappings.items.length_le

theorem Carries.knows {task : Task} (hk : st.Knows task) : st'.Knows task :=
  ⟨h.has hk.operator, Nat.lt_of_lt_of_le hk.subject h.size⟩

theorem Carries.conditional {id : ConditionalId} (hid : st.Has (.conditional id)) :
    st'.conditional id = st.conditional id := by
  have hget : st.conditionals.get? id = some st.conditionals.items[id] :=
    List.getElem?_eq_getElem hid
  rw [Store.conditional, Store.conditional, hget, h.conditionals.get? hget]

theorem Carries.mapping {id : MappingId} (hid : st.Has (.mapping id)) :
    st'.mapping id = st.mapping id := by
  have hget : st.mappings.get? id = some st.mappings.items[id] := List.getElem?_eq_getElem hid
  rw [Store.mapping, Store.mapping, hget, h.mappings.get? hget]

variable (ha : st.Anchored)

include ha

theorem SolidConditional.carries {id : ConditionalId} (hc : st.SolidConditional id) :
    st'.SolidConditional id := by
  have he := h.conditional hc.has
  refine ⟨h.has hc.has, ?_, ?_, ?_⟩
  · rw [he]
    exact hc.pattern.widens ha h.toWidens
  · rw [he]
    exact hc.yes.widens ha h.toWidens
  · rw [he]
    exact hc.no.widens ha h.toWidens

theorem Clean.carries {task : Task} (hc : st.Clean task) : st'.Clean task := by
  refine ⟨?_, hc.subject.widens ha h.toWidens⟩
  obtain ⟨operator, subject⟩ := task
  cases operator with
  | conditional id => exact SolidConditional.carries h ha hc.operator
  | mapping id =>
    obtain ⟨hid, hvalue⟩ := hc.operator
    refine ⟨h.has hid, fun c he => ?_⟩
    rw [h.mapping hid] at he
    exact (hvalue c he).carries h ha

theorem SolidConditional.of_carries {id : ConditionalId} (hid : st.Has (.conditional id))
    (hc : st'.SolidConditional id) : st.SolidConditional id := by
  have he := h.conditional hid
  have hmem : st.conditional id ∈ st.conditionals.items := by
    have hget : st.conditionals.get? id = some st.conditionals.items[id] :=
      List.getElem?_eq_getElem hid
    rw [Store.conditional, hget]
    exact List.getElem_mem _
  obtain ⟨hp, hy, hn⟩ := ha.conditional hmem
  refine ⟨hid, ?_, ?_, ?_⟩
  · exact ha.solid_of_widens h.toWidens hp (he ▸ hc.pattern)
  · exact ha.solid_of_widens h.toWidens hy (he ▸ hc.yes)
  · exact ha.solid_of_widens h.toWidens hn (he ▸ hc.no)

/-- A task that the store knows is clean from the beginning or never. -/
theorem Clean.of_carries (hl : st.Linked) {task : Task} (hk : st.Knows task) (hc : st'.Clean task) :
    st.Clean task := by
  refine ⟨?_, ha.solid_of_widens h.toWidens hk.subject hc.subject⟩
  obtain ⟨operator, subject⟩ := task
  have hid := hk.operator
  cases operator with
  | conditional id => exact SolidConditional.of_carries h ha hid hc.operator
  | mapping id =>
    refine ⟨hid, fun c he => ?_⟩
    apply SolidConditional.of_carries h ha (hl.has hid he)
    apply hc.operator.2 c
    rw [h.mapping hid]
    exact he

end Carries

end Store

namespace Store

variable {st st' : Store}

def valueTasks (st : Store) (id : MappingId) (v : TypeId) : List Task :=
  match (st.mapping id).value with
  | .keep => []
  | .conditional c => (st.targets c v).map (Task.mk (.conditional c))
  | .deep => ((st.unionMembers v).filter st.isContainer).map (Task.mk (.mapping id))

def valuesOf (st : Store) (id : MappingId) (n : TypeId) : List TypeId :=
  (st.form? n).toList.flatMap (st.mapping id).values

def subtasks (st : Store) : Task → List Task
  | ⟨.conditional _, _⟩ => []
  | ⟨.mapping id, n⟩ => (st.valuesOf id n).flatMap (st.valueTasks id)

theorem le_of_unionMembers (ha : st.Anchored) {t m : TypeId} (ht : st.isReserved t = false)
    (hm : m ∈ st.unionMembers t) : m ≤ t := by
  unfold unionMembers at hm
  split at hm
  · cases hm
  · split at hm
    · rename_i hl
      apply Nat.le_of_lt (ha.below ht _)
      rw [mentions_of_form (form_of_lookup hl)]
      exact hm
    · rw [List.mem_singleton.mp hm]

/-- What a conditional is applied to is solid and no larger. -/
theorem mem_targets {id : ConditionalId} {t m : TypeId} (ht : st.Solid t) (hm : m ∈ st.targets id t)
    (ha : st.Anchored) : st.Solid m ∧ m ≤ t := by
  unfold targets at hm
  split at hm
  · exact ⟨ht.members hm, le_of_unionMembers ha ht.isReserved hm⟩
  · rw [List.mem_singleton.mp hm]
    exact ⟨ht, Nat.le_refl t⟩

/-- The values of a solid type are solid and smaller. -/
theorem mem_valuesOf (ha : st.Anchored) {id : MappingId} {n v : TypeId} (hn : st.Solid n)
    (hv : v ∈ st.valuesOf id n) : st.Solid v ∧ v < n := by
  obtain ⟨f, hf, hv⟩ := List.mem_flatMap.mp hv
  rw [Option.mem_toList] at hf
  have hm : v ∈ st.mentions n := by
    rw [mentions_of_form hf]
    exact Mapping.values_mentions hv
  exact ⟨hn.child hm, ha.below hn.isReserved hm⟩

theorem Clean.valueTask (ha : st.Anchored) {id : MappingId} {n v : TypeId}
    (hc : st.Clean ⟨.mapping id, n⟩) (hv : st.Solid v ∧ v < n) {task : Task}
    (ht : task ∈ st.valueTasks id v) : st.Clean task ∧ task.subject < n := by
  unfold valueTasks at ht
  split at ht
  · cases ht
  · rename_i c he
    obtain ⟨x, hx, rfl⟩ := List.mem_map.mp ht
    obtain ⟨hsolid, hle⟩ := mem_targets hv.1 hx ha
    exact ⟨⟨hc.operator.2 c he, hsolid⟩, Nat.lt_of_le_of_lt hle hv.2⟩
  · obtain ⟨x, hx, rfl⟩ := List.mem_map.mp ht
    have hx := (List.mem_filter.mp hx).1
    refine ⟨⟨hc.operator, hv.1.members hx⟩, ?_⟩
    exact Nat.lt_of_le_of_lt (le_of_unionMembers ha hv.1.isReserved hx) hv.2

/-- A clean task leads to clean tasks on smaller subjects only. -/
theorem Clean.subtask (ha : st.Anchored) {task sub : Task} (hc : st.Clean task)
    (hs : sub ∈ st.subtasks task) : st.Clean sub ∧ sub.subject < task.subject := by
  obtain ⟨operator, n⟩ := task
  cases operator with
  | conditional id => cases hs
  | mapping id =>
    obtain ⟨v, hv, hs⟩ := List.mem_flatMap.mp hs
    exact hc.valueTask ha (mem_valuesOf ha hc.subject hv) hs

section Carries

variable (h : st.Carries st') (ha : st.Anchored)

include h ha

theorem targets_carries {id : ConditionalId} (hid : st.Has (.conditional id)) {t : TypeId}
    (ht : st.Solid t) : st'.targets id t = st.targets id t := by
  rw [targets, targets, h.conditional hid, ht.unionMembers_widens ha h.toWidens]

omit ha in
theorem isContainer_carries {t : TypeId} (ht : st.Solid t) :
    st'.isContainer t = st.isContainer t := by
  rw [isContainer, isContainer, ht.lookup_widens h.toWidens]

/-- The tasks for a value are the same in every wider store. -/
theorem Clean.valueTasks_carries {id : MappingId} {n v : TypeId} (hc : st.Clean ⟨.mapping id, n⟩)
    (hv : st.Solid v) : st'.valueTasks id v = st.valueTasks id v := by
  unfold valueTasks
  rw [h.mapping hc.operator.1]
  split
  · rfl
  · rename_i c he
    rw [targets_carries h ha (hc.operator.2 c he).has hv]
  · rw [hv.unionMembers_widens ha h.toWidens]
    congr 1
    apply List.filter_congr
    intro x hx
    exact isContainer_carries h (hv.members hx)

theorem Clean.valuesOf_carries {id : MappingId} {n : TypeId} (hc : st.Clean ⟨.mapping id, n⟩) :
    st'.valuesOf id n = st.valuesOf id n := by
  rw [valuesOf, valuesOf, h.mapping hc.operator.1, hc.subject.form_widens ha h.toWidens]

/-- So are all the tasks that a clean task leads to. -/
theorem Clean.subtasks_carries {task : Task} (hc : st.Clean task) :
    st'.subtasks task = st.subtasks task := by
  obtain ⟨operator, n⟩ := task
  cases operator with
  | conditional id => rfl
  | mapping id =>
    show (st'.valuesOf id n).flatMap _ = (st.valuesOf id n).flatMap _
    rw [hc.valuesOf_carries h ha]
    apply List.flatMap_congr
    intro v hv
    exact hc.valueTasks_carries h ha (mem_valuesOf ha hc.subject hv).1

end Carries

end Store

end TypeCalculus
