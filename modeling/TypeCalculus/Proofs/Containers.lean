import TypeCalculus.Proofs.Answers
import TypeCalculus.Proofs.NodeInvariants
import TypeCalculus.Proofs.UnionLaws

namespace TypeCalculus

def NodeInvariant.ofGroups (P : List TypeId → Prop)
    (hunion : ∀ {st : Store} {types ms : List TypeId}, st.unionPlan types = .inr ms → P ms)
    (hintersection : ∀ {st : Store} {types ms : List TypeId},
      st.intersectionPlan types = .inr ms → P ms) :
    NodeInvariant where
  At st node := st.Placed node ∧ ∀ id, node = .union id ∨ node = .intersection id → P (st.list id)
  widens {st st' node} hs h := by
    refine ⟨hs.placed h.1, fun id he => ?_⟩
    have hlist : st'.list id = st.list id := by
      rcases he with rfl | rfl
      · exact Form.union.inj (hs.form h.1)
      · exact Form.intersection.inj (hs.form h.1)
    rw [hlist]
    exact h.2 id he
  union {st st' types ms id} hp hms := by
    refine ⟨Option.isSome_of_eq_some hms, fun other he => ?_⟩
    obtain rfl : id = other := by simpa using he
    rw [Store.list, hms]
    exact hunion hp
  intersection {st st' types ms id} hp hms := by
    refine ⟨Option.isSome_of_eq_some hms, fun other he => ?_⟩
    obtain rfl : id = other := by simpa using he
    rw [Store.list, hms]
    exact hintersection hp
  other hp hg := by
    refine ⟨hp, fun id he => ?_⟩
    rcases he with rfl | rfl
    · cases hg
    · cases hg

def NodeInvariant.normal : NodeInvariant :=
  .ofGroups (fun ms => ms.Pairwise (· < ·) ∧ 2 ≤ ms.length)
    (fun hp => (Store.unionPlan_inr hp).imp_left fun hms => hms ▸ Store.pairwise_kept)
    fun hp => by
      obtain ⟨_, _, rfl, hseveral, _⟩ := Store.intersectionPlan_inr hp
      exact ⟨(pairwise_ascending _).filter _, hseveral⟩

namespace Store

/-- Types were made by the action for their kind. -/
structure Neat (st : Store) : Prop where
  reached : st.Reached
  nodes : NodeInvariant.normal.Holds st

theorem neat_afterAll {ops : List Operation} (h : ∀ op ∈ ops, op.isRaw = false) :
    (Operation.afterAll .initial ops).Neat :=
  ⟨Operation.reached_afterAll .initial ops,
    NodeInvariant.holds_afterAll (NodeInvariant.holds_initial _) h⟩

namespace Neat

variable {st st' : Store} (h : st.Neat)

include h

theorem placed {t : TypeId} {node : Node} (hn : st.lookup t = some node) : st.Placed node :=
  (h.nodes.node t node hn).1

theorem several {t : TypeId} {ms : List TypeId}
    (hf : st.form? t = some (.union ms) ∨ st.form? t = some (.intersection ms)) :
    2 ≤ ms.length := by
  rcases hf with hf | hf
  all_goals
    obtain ⟨node, hl, hnode⟩ := lookup_of_form hf
    cases node <;> cases hnode
  · exact ((h.nodes.node t _ hl).2 _ (.inl rfl)).2
  · exact ((h.nodes.node t _ hl).2 _ (.inr rfl)).2

theorem unique {f : Form} {t u : TypeId} (ht : Made f t st) (hu : Made f u st) : t = u :=
  h.reached.shared.made_unique h.placed ht hu

theorem pairwise_unionMembers (t : TypeId) : (st.unionMembers t).Pairwise (· < ·) := by
  unfold unionMembers
  split
  · exact .nil
  · split
    · rename_i id hl
      exact ((h.nodes.node t _ hl).2 id (.inl rfl)).1
    · exact List.pairwise_singleton ..

variable (hs : st.Extends st')

include hs

/-- What a type is made of it stays made of, whether or not the types that it mentions are there. -/
theorem form {t : TypeId} (ht : t < st.size) : st'.form? t = st.form? t :=
  hs.form (fun _ => h.placed) ht

theorem made {f : Form} {t : TypeId} (hm : Made f t st) : Made f t st' where
  form := (h.form hs hm.lt_size).trans hm.form
  interned := (hs.isReserved hm.lt_size).trans hm.interned

theorem unionMembers {t : TypeId} (ht : t < st.size) : st'.unionMembers t = st.unionMembers t := by
  unfold Store.unionMembers
  rw [hs.lookup ht]
  split
  · rfl
  · split
    · rename_i id hl
      exact Form.union.inj (hs.widens.form (h.placed hl))
    · rfl

end Neat

/-- If a type is added, it is the one that was made. -/
theorem form_build_new {st : Store} (h : st.Reached) {f g : Form} (hf : f.isContainer = true)
    {t : TypeId} (ht : st.size ≤ t) (hg : (f.build.run st).2.form? t = some g) : g = f := by
  have hmade := Form.made_build (Form.isExact_of_isContainer hf) h.shared.indexed
  have hshared := ((f.evolves_build st).reached h).shared
  have hintern : ∃ node st₁, (∀ kind, node ≠ .intrinsic kind) ∧ st₁.size = st.size ∧
      f.build.run st = (intern node).run st₁ := by
    cases f with
    | object shape =>
      exact ⟨.object _, ((internShape shape).run st).2, (fun _ h => by cases h), rfl, rfl⟩
    | array element => exact ⟨.array element, st, (fun _ h => by cases h), rfl, rfl⟩
    | tuple slots =>
      exact ⟨.tuple _, ((internSlots slots).run st).2, (fun _ h => by cases h), rfl, rfl⟩
    | _ => cases hf
  obtain ⟨node, st₁, hn, hsize, hrun⟩ := hintern
  rw [hrun] at hmade hshared hg
  obtain ⟨other, hl, _⟩ := lookup_of_form hg
  obtain ⟨hcell, _⟩ := Discipline.intern_new hn (hsize ▸ ht) hl
  have hplace := hshared.indexed.cell_inj hcell (Discipline.cell_intern hn hshared.indexed)
  rw [hplace] at hg
  exact Option.some.inj (hg.symm.trans hmade.form)

theorem lookup_mkUnion_new {st : Store} {types : List TypeId} {t : TypeId} {node : Node}
    (ht : st.size ≤ t) (hl : ((mkUnion types).run st).2.lookup t = some node) :
    ∃ id, node = .union id := by
  rw [run_mkUnion] at hl
  cases hp : st.unionPlan types with
  | inl u =>
    rw [hp] at hl
    cases (lookup_of_cells rfl ht).symm.trans hl
  | inr ms =>
    rw [hp] at hl
    have hn (kind : Intrinsic) : Node.union ((internList ms).run st).1 ≠ .intrinsic kind :=
      fun h => by cases h
    have ht : ((internList ms).run st).2.size ≤ t := ht
    obtain ⟨_, _, rfl⟩ := Discipline.intern_new hn ht hl
    exact ⟨_, rfl⟩

def Plain (st : Store) (t : TypeId) : Prop := t = .never ∨ st.isContainer t = true

theorem Made.isContainer {st : Store} {f : Form} {t : TypeId} (h : Made f t st)
    (hf : f.isContainer = true) :
    st.isContainer t = true := by
  obtain ⟨node, hn, rfl⟩ := lookup_of_form h.form
  rw [Store.isContainer, hn, Option.any_some, ← form_isContainer st, hf]

theorem Grows.plain {st st' : Store} (h : st.Grows st') {t : TypeId} (ht : st.Plain t) :
    st'.Plain t := by
  refine ht.imp_right fun hc => ?_
  unfold isContainer at hc
  cases hn : st.lookup t with
  | none =>
    rw [hn] at hc
    cases hc
  | some node =>
    rw [hn] at hc
    rw [isContainer, h.lookup hn, hc]

theorem Founded.lt_size_of_plain {st : Store} (hf : st.Founded) {t : TypeId} (ht : st.Plain t) :
    t < st.size := by
  rcases ht with rfl | hc
  · exact (hf.solid .never).lt_size
  · unfold isContainer at hc
    exact lt_size_of_lookup (Option.isSome_of_any hc)

section Plain

variable {st : Store} (hf : st.Founded) {types : List TypeId} (hp : ∀ t ∈ types, st.Plain t)

include hf

theorem Founded.ne_intrinsic {t : TypeId} (hc : st.isContainer t = true) (kind : Intrinsic) :
    t ≠ kind.id := by
  rintro rfl
  rw [isContainer, hf.lookup] at hc
  cases hc

theorem Founded.unionMembers_container {t : TypeId} (hc : st.isContainer t = true) :
    st.unionMembers t = [t] := by
  have hne : t ≠ .never := hf.ne_intrinsic hc .never
  unfold unionMembers
  rw [if_neg hne]
  split
  · rename_i id hl
    rw [isContainer, hl] at hc
    cases hc
  · rfl

include hp

theorem apart_plain : Apart types st where
  alone ht hn := hf.unionMembers_container ((hp _ ht).resolve_left hn)
  plain ht := by
    rcases hp _ ht with rfl | hc
    · exact ⟨by decide, by decide⟩
    · exact ⟨hf.ne_intrinsic hc .any, hf.ne_intrinsic hc .unknown⟩
  literal ht hl := by
    rcases hp _ ht with rfl | hc
    · cases (hf.lookup .never).symm.trans hl
    · rw [isContainer, hl] at hc
      cases hc

/-- A union of containers loses none of them. -/
theorem mem_united_plain (m : TypeId) : m ∈ st.united types ↔ m ∈ types ∧ m ≠ .never :=
  (apart_plain hf hp).mem_united m

/-- Which containers are united does not depend on their order or on the store. -/
theorem united_plain_congr {st' : Store} (hf' : st'.Founded) {others : List TypeId}
    (hp' : ∀ t ∈ others, st'.Plain t) (h : ∀ m, m ≠ .never → (m ∈ types ↔ m ∈ others)) :
    st.united types = st'.united others := by
  apply (pairwise_united _).eq_of_mem_iff (pairwise_united _)
  intro m
  rw [mem_united_plain hf hp, mem_united_plain hf' hp']
  exact and_congr_left fun hne => h m hne

omit hp in
theorem mkUnion_plain_self {t : TypeId} (ht : st.Plain t) : (mkUnion [t]).run st = (t, st) := by
  rcases ht with rfl | hc
  · rfl
  · have hp : ∀ u ∈ [t], st.Plain u := fun u hu => .inr (List.mem_singleton.mp hu ▸ hc)
    have hunited : st.united [t] = [t] := by
      apply (pairwise_united _).eq_of_mem_iff (List.pairwise_singleton ..)
      intro m
      rw [mem_united_plain hf hp, List.mem_singleton, and_iff_left_of_imp]
      rintro rfl
      exact hf.ne_intrinsic hc .never
    rw [run_mkUnion, unionPlan_eq, hunited]

/-- A union of containers is found again later. -/
theorem repeats_mkUnion_plain : Repeats (mkUnion types) st := by
  intro st' h
  have hext : st.Extends ((mkUnion types).run st).2 := (Form.evolves_build (.union types) st).grown
  have hgrown := hext.grows.trans h
  have hsame : st'.united types = st.united types :=
    united_plain_congr (hgrown.widens.founded hf) (fun t ht => hgrown.plain (hp t ht)) hf hp
      fun _ _ => .rfl
  rw [run_mkUnion, run_mkUnion, unionPlan_eq, unionPlan_eq, hsame]
  rw [run_mkUnion, unionPlan_eq] at h
  rcases hu : st.united types with _ | ⟨only, _ | ⟨other, rest⟩⟩
  · rfl
  · rfl
  · rw [hu] at h
    have hintern (id : ListId) (st : Store) : Repeats (intern (.union id)) st :=
      repeats_intern fun _ h => by cases h
    exact (repeats_internList _).bind (hintern _ _) (extends_intern _ _).grows st' h

/-- The members of a union that has been built. -/
theorem unionMembers_mkUnion_plain (hi : st.Indexed) {a : TypeId}
    (h : (mkUnion types).run st = (a, st)) :
    st.unionMembers a = st.united types := by
  rw [run_mkUnion, unionPlan_eq] at h
  rcases hu : st.united types with _ | ⟨only, _ | ⟨other, rest⟩⟩
  · rw [hu] at h
    cases (Prod.mk.inj h).1
    rfl
  · rw [hu] at h
    obtain ⟨hm, hne⟩ := (mem_united_plain hf hp only).mp (hu ▸ List.mem_singleton.mpr rfl)
    have hmembers := hf.unionMembers_container ((hp only hm).resolve_left hne)
    rw [← (Prod.mk.inj h).1]
    exact hmembers
  · rw [hu] at h
    obtain ⟨id, hl, hms⟩ := interned_members hi (fun _ _ h => by cases h) h
    rw [unionMembers_of_form hf (form_of_lookup hl), hms]

end Plain

end Store

end TypeCalculus
