import Mathlib.Data.List.Sort
import TypeCalculus.Proofs.HashConsing

namespace TypeCalculus

theorem Literal.primitive_plain (value : Literal) :
    value.primitive.isIntrinsic = true ∧ value.primitive ≠ .any ∧ value.primitive ≠ .unknown ∧
      value.primitive ≠ .never := by
  cases value <;> simp only [Literal.primitive] <;> decide

namespace Store

/-- What is left of the members `F` of several types when the types are united. -/
inductive Joined (st : Store) (F : TypeId → Prop) : TypeId → Prop
  | any (h : F .any) : Joined st F .any
  | unknown (ha : ¬ F .any) (h : F .unknown) : Joined st F .unknown
  | member {m : TypeId} (ha : ¬ F .any) (hu : ¬ F .unknown) (hm : F m) (hn : m ≠ .never)
    (hl : ∀ value, st.lookup m = some (.literal value) → ¬ F value.primitive) : Joined st F m

variable {st : Store}

theorem Joined.mem {F : TypeId → Prop} {m : TypeId} (h : st.Joined F m) : F m := by
  cases h with
  | any h => exact h
  | unknown _ h => exact h
  | member _ _ h => exact h

theorem joined_congr {F G : TypeId → Prop} (h : ∀ m, F m ↔ G m) (m : TypeId) :
    st.Joined F m ↔ st.Joined G m := by
  have he : F = G := funext fun m => propext (h m)
  rw [he]

theorem Founded.lookup_primitive (hf : st.Founded) (value other : Literal) :
    st.lookup value.primitive ≠ some (.literal other) := by
  obtain ⟨kind, hk⟩ := TypeId.isIntrinsic_iff.mp value.primitive_plain.1
  rw [← hk, hf.lookup kind]
  intro h
  cases h

/-- What is dropped from one group of members is also dropped from all of them together. -/
theorem joined_nested (hf : st.Founded) {ι : Type} (F : ι → TypeId → Prop) (m : TypeId) :
    st.Joined (fun m => ∃ i, st.Joined (F i) m) m ↔ st.Joined (fun m => ∃ i, F i m) m := by
  have hany : (∃ i, st.Joined (F i) .any) ↔ ∃ i, F i .any :=
    exists_congr fun _ => ⟨Joined.mem, .any⟩
  have hunknown (ha : ¬ ∃ i, F i .any) : (∃ i, st.Joined (F i) .unknown) ↔ ∃ i, F i .unknown :=
    exists_congr fun i => ⟨Joined.mem, .unknown fun h => ha ⟨i, h⟩⟩
  have hmember (ha : ¬ ∃ i, F i .any) (hu : ¬ ∃ i, F i .unknown) {i : ι} {m : TypeId} (hm : F i m)
      (hn : m ≠ .never) (hl : ∀ value, st.lookup m = some (.literal value) →
        ¬ F i value.primitive) :
      ∃ i, st.Joined (F i) m :=
    ⟨i, .member (fun h => ha ⟨i, h⟩) (fun h => hu ⟨i, h⟩) hm hn hl⟩
  constructor
  · intro h
    cases h with
    | any h => exact .any (hany.mp h)
    | unknown ha h =>
      have ha := mt hany.mpr ha
      exact .unknown ha ((hunknown ha).mp h)
    | member ha hu hm hn hl =>
      have ha := mt hany.mpr ha
      have hu := mt (hunknown ha).mpr hu
      refine .member ha hu (hm.imp fun _ h => h.mem) hn fun value hv ⟨i, hp⟩ => hl value hv ?_
      exact hmember ha hu hp value.primitive_plain.2.2.2 fun other ho =>
        absurd ho (hf.lookup_primitive value other)
  · intro h
    cases h with
    | any h => exact .any (hany.mpr h)
    | unknown ha h => exact .unknown (mt hany.mp ha) ((hunknown ha).mpr h)
    | member ha hu hm hn hl =>
      obtain ⟨i, hm⟩ := hm
      refine .member (mt hany.mp ha) (mt (hunknown ha).mp hu) ?_ hn fun value hv ⟨j, hp⟩ =>
        hl value hv ⟨j, hp.mem⟩
      exact hmember ha hu hm hn fun value hv hp => hl value hv ⟨i, hp⟩

theorem unionMembers_of_form (hf : st.Founded) {t : TypeId} {ms : List TypeId}
    (h : st.form? t = some (.union ms)) : st.unionMembers t = ms := by
  obtain ⟨node, hn, he⟩ := lookup_of_form h
  have hnever : t ≠ .never := by
    rintro rfl
    cases (hf.form .never).symm.trans h
  unfold Store.unionMembers
  rw [if_neg hnever, hn]
  cases node <;> simp only [form, reduceCtorEq, Form.union.injEq] at he
  exact he

/-- Of the types that are no unions, only `never` has no members; the others have themselves. -/
theorem unionMembers_cases (ht : st.Tidy) (t : TypeId) :
    t = .never ∧ st.unionMembers t = [] ∨
      t ≠ .never ∧ st.unionMembers t = [t] ∧ (∀ id, st.lookup t ≠ some (.union id)) ∨
      ∃ id, st.lookup t = some (.union id) ∧ st.unionMembers t = st.list id ∧
        st.RegularUnion (st.list id) := by
  by_cases hn : t = .never
  · subst hn
    exact .inl ⟨rfl, rfl⟩
  · right
    unfold Store.unionMembers
    rw [if_neg hn]
    split
    · rename_i id hl
      exact .inr ⟨id, hl, rfl, ht.regular (form_of_lookup hl)⟩
    · rename_i hl
      exact .inl ⟨hn, rfl, fun id h => hl id h⟩

theorem pairwise_unionMembers (ht : st.Tidy) (t : TypeId) :
    (st.unionMembers t).Pairwise (· < ·) := by
  rcases unionMembers_cases ht t with ⟨_, h⟩ | ⟨_, h, _⟩ | ⟨id, _, h, hr⟩
  · rw [h]
    exact .nil
  · rw [h]
    exact List.pairwise_singleton ..
  · rw [h]
    exact hr.ascending

/-- A type's own members are in normal form. -/
theorem joined_unionMembers (ht : st.Tidy) (hf : st.Founded) (t m : TypeId) :
    st.Joined (· ∈ st.unionMembers t) m ↔ m ∈ st.unionMembers t := by
  refine ⟨Joined.mem, fun hm => ?_⟩
  rcases unionMembers_cases ht t with ⟨_, h⟩ | ⟨hn, h, _⟩ | ⟨id, _, h, hr⟩
  · rw [h] at hm
    cases hm
  · rw [h] at hm ⊢
    obtain rfl := List.mem_singleton.mp hm
    by_cases ha : m = .any
    · subst ha
      exact .any (List.mem_singleton.mpr rfl)
    · by_cases hu : m = .unknown
      · subst hu
        exact .unknown (by decide) (List.mem_singleton.mpr rfl)
      · refine .member (fun h => ha (List.mem_singleton.mp h).symm)
          (fun h => hu (List.mem_singleton.mp h).symm) hm hn fun value hv hp => ?_
        rw [← List.mem_singleton.mp hp] at hv
        exact hf.lookup_primitive value value hv
  · rw [h] at hm ⊢
    obtain ⟨_, _, hn⟩ := hr.plain hm
    exact .member (fun h => (hr.plain h).1 rfl) (fun h => (hr.plain h).2.1 rfl) hm hn
      fun value hv => hr.absorbed hm hv

theorem mem_kept (types : List TypeId) (m : TypeId) :
    m ∈ st.kept types ↔ m ∈ st.flat types ∧ m ≠ .never ∧
      ∀ value, st.lookup m = some (.literal value) → value.primitive ∉ st.flat types := by
  have hprim (value : Literal) : value.primitive ∈ (st.flat types).filter (· ≠ TypeId.never) ↔
      value.primitive ∈ st.flat types := by
    simp [value.primitive_plain.2.2.2]
  unfold kept absorbLiterals
  rw [List.mem_filter, List.mem_filter, and_assoc]
  refine and_congr_right fun _ => and_congr (by simp) ?_
  split
  · rename_i value hl
    simp only [decide_eq_true_eq, hprim]
    refine ⟨fun h other ho => ?_, fun h => h value hl⟩
    cases hl.symm.trans ho
    exact h
  · rename_i hl
    simp only [true_iff]
    intro value hv
    exact absurd hv (hl value)

def united (st : Store) (types : List TypeId) : List TypeId :=
  if TypeId.any ∈ st.flat types then [.any]
  else if TypeId.unknown ∈ st.flat types then [.unknown]
  else st.kept types

section United

variable (types : List TypeId)

/-- A union of no members is `never`, and that of one is the member. -/
theorem unionPlan_eq : st.unionPlan types = match st.united types with
    | [] => .inl .never
    | [only] => .inl only
    | members => .inr members := by
  unfold unionPlan united
  by_cases ha : TypeId.any ∈ st.flat types
  · simp only [if_pos ha]
  · by_cases hu : TypeId.unknown ∈ st.flat types
    · simp only [if_neg ha, if_pos hu]
    · rcases hk : st.kept types with _ | ⟨only, _ | ⟨other, rest⟩⟩ <;>
        simp only [if_neg ha, if_neg hu]

theorem pairwise_united : (st.united types).Pairwise (· < ·) := by
  unfold united
  split
  · exact List.pairwise_singleton ..
  · split
    · exact List.pairwise_singleton ..
    · exact pairwise_kept

/-- Which members a union has depends on the members of the united types alone. -/
theorem mem_united (m : TypeId) : m ∈ st.united types ↔ st.Joined (· ∈ st.flat types) m := by
  unfold united
  split
  · rename_i hany
    rw [List.mem_singleton]
    refine ⟨fun h => h ▸ .any hany, fun h => ?_⟩
    cases h with
    | any => rfl
    | unknown ha => exact absurd hany ha
    | member ha => exact absurd hany ha
  · rename_i hany
    split
    · rename_i hunknown
      rw [List.mem_singleton]
      refine ⟨fun h => h ▸ .unknown hany hunknown, fun h => ?_⟩
      cases h with
      | any h => exact absurd h hany
      | unknown => rfl
      | member _ hu => exact absurd hunknown hu
    · rename_i hunknown
      rw [mem_kept]
      refine ⟨fun ⟨hm, hn, hl⟩ => .member hany hunknown hm hn hl, fun h => ?_⟩
      cases h with
      | any h => exact absurd h hany
      | unknown _ h => exact absurd h hunknown
      | member _ _ hm hn hl => exact ⟨hm, hn, hl⟩

structure Apart (st : Store) : Prop where
  alone {t : TypeId} : t ∈ types → t ≠ .never → st.unionMembers t = [t]
  plain {t : TypeId} : t ∈ types → t ≠ .any ∧ t ≠ .unknown
  literal {t : TypeId} {value : Literal} : t ∈ types → st.lookup t = some (.literal value) →
    value.primitive ∉ types

variable {types}

theorem Apart.mem_flat (h : Apart types st) (m : TypeId) :
    m ∈ st.flat types ↔ m ∈ types ∧ m ≠ .never := by
  rw [Store.mem_flat]
  constructor
  · rintro ⟨t, ht, hm⟩
    by_cases hn : t = .never
    · subst hn
      cases hm
    · rw [h.alone ht hn] at hm
      obtain rfl := List.mem_singleton.mp hm
      exact ⟨ht, hn⟩
  · rintro ⟨hm, hn⟩
    exact ⟨m, hm, h.alone hm hn ▸ List.mem_singleton.mpr rfl⟩

/-- Their union has them for its members, but for `never`. -/
theorem Apart.mem_united (h : Apart types st) (m : TypeId) :
    m ∈ st.united types ↔ m ∈ types ∧ m ≠ .never := by
  rw [Store.mem_united, ← h.mem_flat]
  refine ⟨Joined.mem, fun hm => ?_⟩
  obtain ⟨hmem, hn⟩ := (h.mem_flat m).mp hm
  refine .member (fun ha => ?_) (fun hu => ?_) hm hn fun value hl hp => ?_
  · exact (h.plain ((h.mem_flat _).mp ha).1).1 rfl
  · exact (h.plain ((h.mem_flat _).mp hu).1).2 rfl
  · exact h.literal hmem hl ((h.mem_flat _).mp hp).1

theorem run_mkUnion_congr {others : List TypeId} (h : st.united types = st.united others) :
    (mkUnion types).run st = (mkUnion others).run st := by
  rw [run_mkUnion, run_mkUnion, unionPlan_eq, unionPlan_eq, h]

/-- The members of a union are no unions. -/
theorem unionMembers_united (hw : st.WellFormed) {m : TypeId} (hm : m ∈ st.united types) :
    st.unionMembers m = [m] := by
  have hjoined := (mem_united types m).mp hm
  have hn : m ≠ .never := by
    cases hjoined with
    | any => decide
    | unknown => decide
    | member _ _ _ hn => exact hn
  unfold Store.unionMembers
  rw [if_neg hn]
  split
  · rename_i id hl
    exact absurd (form_of_lookup hl) ((hw.mem_flat hjoined.mem).2 _)
  · rfl

/-- The members of a union that has been built. -/
theorem unionMembers_mkUnion (hw : st.WellFormed) (ht : ∀ t ∈ types, t < st.size) :
    ((mkUnion types).run st).2.unionMembers ((mkUnion types).run st).1 = st.united types := by
  have hlater : Later st ((mkUnion types).run st).2 := (leads_mkUnion hw ht).1
  have hanswer : UnionAnswer st types ((mkUnion types).run st).1 ((mkUnion types).run st).2 :=
    (leads_mkUnion hw ht).2
  have hplan : st.unionPlan types = _ := unionPlan_eq types
  rcases hu : st.united types with _ | ⟨only, _ | ⟨other, rest⟩⟩
  · rw [hu] at hplan
    rw [run_mkUnion, hplan]
    rfl
  · rw [hu] at hplan
    rw [run_mkUnion, hplan]
    exact unionMembers_united hw (hu ▸ List.mem_singleton.mpr rfl)
  · rw [hu] at hplan
    obtain ⟨hkept, _⟩ := unionPlan_inr hplan
    generalize (mkUnion types).run st = r at hlater hanswer ⊢
    obtain ⟨t, st'⟩ := r
    cases hanswer with
    | any h => simp [united, h] at hu
    | unknown h =>
      simp only [united, if_pos h] at hu
      split at hu <;> cases hu
    | never h => cases h.symm.trans hkept
    | only h => cases h.symm.trans hkept
    | members _ hm =>
      rw [← hkept]
      exact unionMembers_of_form (hlater.grown.founded hw.founded) hm.form

/-- The members of a union, where it stands. -/
theorem mem_unionMembers_mkUnion (hw : st.WellFormed) (ht : ∀ t ∈ types, t < st.size) {u : TypeId}
    (hu : (mkUnion types).run st = (u, st)) (m : TypeId) :
    m ∈ st.unionMembers u ↔ st.Joined (· ∈ st.flat types) m := by
  have hunited := unionMembers_mkUnion hw ht
  rw [hu] at hunited
  rw [hunited, mem_united]

end United

/-- A member has no other members than itself. -/
theorem unionMembers_of_mem (ht : st.Tidy) (hw : st.WellFormed) {t m : TypeId}
    (hm : m ∈ st.unionMembers t) : st.unionMembers m = [m] := by
  have hn : m ≠ .never := by
    rcases unionMembers_cases ht t with ⟨_, h⟩ | ⟨hn, h, _⟩ | ⟨id, _, h, hr⟩
    · rw [h] at hm
      cases hm
    · rw [h] at hm
      exact List.mem_singleton.mp hm ▸ hn
    · rw [h] at hm
      exact (hr.plain hm).2.2
  rcases unionMembers_cases ht m with ⟨h, _⟩ | ⟨_, h, _⟩ | ⟨id, hl, _, _⟩
  · exact absurd h hn
  · exact h
  · exact absurd (form_of_lookup hl) ((hw.mem_unionMembers hm).2 _)

theorem get?_of_placed {id : ListId} (h : (st.lists.get? id).isSome) :
    st.lists.get? id = some (st.list id) := by
  obtain ⟨ms, hms⟩ := Option.isSome_iff_exists.mp h
  rw [hms, list, hms]
  rfl

/-- A type that is made of a list of members is found where it stands. -/
theorem intern_members (hs : st.Shared) {make : ListId → Node} {t : TypeId} {id : ListId}
    {ms : List TypeId} (hcell : st.cells[t]? = some (.interned (make id)))
    (hlist : st.lists.get? id = some ms) :
    (internList ms >>= fun id => intern (make id)).run st = (t, st) := by
  have hintern : (internList ms).run st = (id, st) := by
    show ((st.lists.intern ms).1, { st with lists := (st.lists.intern ms).2 }) = _
    rw [hs.indexed.lists.intern_of_get? hlist]
  rw [StateT.run_bind, hintern]
  exact hs.intern_of_cell hcell

/-- A type that has been made of a list of members has them. -/
theorem interned_members (hi : st.Indexed) {make : ListId → Node}
    (hn : ∀ id kind, make id ≠ .intrinsic kind) {ms : List TypeId} {a : TypeId}
    (h : (internList ms >>= fun id => intern (make id)).run st = (a, st)) :
    ∃ id, st.lookup a = some (make id) ∧ st.list id = ms := by
  have hlist : ((internList ms).run st).2.lists.get? ((internList ms).run st).1 = some ms :=
    hi.lists.get?_intern ms
  change (intern (make ((internList ms).run st).1)).run ((internList ms).run st).2 = (a, st) at h
  generalize (internList ms).run st = r at hlist h
  have hindexed : ((intern (make r.1)).run r.2).2.Indexed := h.symm ▸ hi
  have hcell := Discipline.cell_intern (hn r.1) hindexed
  have htables := Discipline.intern_tables (hn r.1) r.2
  rw [h] at hcell htables
  have hlists := congrArg Store.lists htables
  change st.lists = r.2.lists at hlists
  refine ⟨r.1, (interned_iff.mp hcell).1, ?_⟩
  rw [list, hlists, hlist]
  rfl

section Known

variable (ht : st.Tidy) (hs : st.Shared)

include ht

theorem eq_of_unionMembers_nil {t : TypeId} (h : st.unionMembers t = []) : t = .never := by
  rcases unionMembers_cases ht t with ⟨hn, _⟩ | ⟨_, h', _⟩ | ⟨id, _, h', hr⟩
  · exact hn
  · cases h.symm.trans h'
  · have := hr.several
    rw [← h', h] at this
    cases this

theorem eq_of_unionMembers_singleton {t u : TypeId} (h : st.unionMembers t = [u]) : t = u := by
  rcases unionMembers_cases ht t with ⟨_, h'⟩ | ⟨_, h', _⟩ | ⟨id, _, h', hr⟩
  · cases h.symm.trans h'
  · cases h.symm.trans h'
    rfl
  · have := hr.several
    rw [← h', h] at this
    simp at this

include hs

/-- A union is found where it stands. -/
theorem intern_unionMembers {t : TypeId} (h : 2 ≤ (st.unionMembers t).length)
    (ha : st.Anchored) :
    (internList (st.unionMembers t) >>= fun id => intern (.union id)).run st = (t, st) := by
  rcases unionMembers_cases ht t with ⟨_, h'⟩ | ⟨_, h', _⟩ | ⟨id, hl, h', _⟩
  · simp [h'] at h
  · simp [h'] at h
  · have hcell : st.cells[t]? = some (.interned (.union id)) := by
      apply interned_iff.mpr ⟨hl, _⟩
      cases hr : st.isReserved t with
      | false => rfl
      | true => cases ht.container hr hl
    rw [h']
    exact intern_members hs hcell (get?_of_placed (ha.placed hl))

/-- A type whose members are those of a union is that union. -/
theorem mkUnion_eq (ha : st.Anchored) {types : List TypeId} {t : TypeId}
    (h : ∀ m, m ∈ st.unionMembers t ↔ st.Joined (· ∈ st.flat types) m) :
    (mkUnion types).run st = (t, st) := by
  have hmembers : st.unionMembers t = st.united types :=
    (pairwise_unionMembers ht t).eq_of_mem_iff (pairwise_united types) fun m =>
      (h m).trans (mem_united types m).symm
  rw [run_mkUnion, unionPlan_eq]
  rcases hu : st.united types with _ | ⟨only, _ | ⟨other, rest⟩⟩
  · rw [eq_of_unionMembers_nil ht (hmembers.trans hu)]
  · rw [eq_of_unionMembers_singleton ht (hmembers.trans hu)]
  · have hlen : 2 ≤ (st.unionMembers t).length := by
      rw [hmembers, hu]
      simp
    have hintern := intern_unionMembers ht hs hlen ha
    rw [hmembers, hu] at hintern
    exact hintern

/-- The union of one type is that type. -/
theorem mkUnion_self (ha : st.Anchored) (t : TypeId) : (mkUnion [t]).run st = (t, st) := by
  apply mkUnion_eq ht hs ha
  intro m
  rw [← joined_unionMembers ht ha.founded t m]
  apply joined_congr
  intro m
  simp [mem_flat]

/-- Two unions, united, are the union of all that they are made of. -/
theorem mkUnion_pair (ha : st.Anchored) {xs ys zs : List TypeId}
    (hx : ∀ t ∈ xs, t < st.size) (hy : ∀ t ∈ ys, t < st.size) (hz : ∀ t ∈ zs, t < st.size)
    {a b c : TypeId} (hxs : (mkUnion xs).run st = (a, st)) (hys : (mkUnion ys).run st = (b, st))
    (hzs : (mkUnion zs).run st = (c, st))
    (h : ∀ m, m ∈ st.flat zs ↔ m ∈ st.flat xs ∨ m ∈ st.flat ys) :
    (mkUnion [a, b]).run st = (c, st) := by
  have hw := ht.wellFormed ha
  let groups (i : Bool) (m : TypeId) : Prop := m ∈ st.flat (bif i then xs else ys)
  apply mkUnion_eq ht hs ha
  intro m
  calc m ∈ st.unionMembers c
    _ ↔ st.Joined (· ∈ st.flat zs) m := mem_unionMembers_mkUnion hw hz hzs m
    _ ↔ st.Joined (fun m => ∃ i, groups i m) m :=
      joined_congr (fun m => by simp [groups, h, or_comm]) m
    _ ↔ st.Joined (fun m => ∃ i, st.Joined (groups i) m) m :=
      (joined_nested ha.founded groups m).symm
    _ ↔ st.Joined (· ∈ st.flat [a, b]) m := by
      apply joined_congr
      intro m
      simp [groups, mem_flat, mem_unionMembers_mkUnion hw hx hxs,
        mem_unionMembers_mkUnion hw hy hys, or_comm]

end Known

end Store

end TypeCalculus
