import TypeCalculus.Proofs.Merging
import TypeCalculus.Proofs.NodeInvariants

namespace TypeCalculus

namespace Store

structure Intersecting (ms : List TypeId) : Prop where
  several : ∃ m ∈ ms, ∃ n ∈ ms, m ≠ n
  plain {m : TypeId} : m ∈ ms → m ≠ .any ∧ m ≠ .unknown

theorem exists_ne_of_ascending {ms : List TypeId} (h : ms.Pairwise (· < ·)) (hlen : 2 ≤ ms.length) :
    ∃ m ∈ ms, ∃ n ∈ ms, m ≠ n := by
  rcases ms with _ | ⟨m, _ | ⟨n, rest⟩⟩
  · cases hlen
  · simp at hlen
  · exact ⟨m, by simp, n, by simp, Nat.ne_of_lt ((List.pairwise_cons.mp h).1 n List.mem_cons_self)⟩

/-- What is planned is an intersection of at least two types. -/
theorem intersecting_crossed {st : Store} {types ms : List TypeId}
    (hp : st.intersectionPlan types = .inr ms) : Intersecting ms := by
  obtain ⟨_, hany, rfl, hlen, _⟩ := intersectionPlan_inr hp
  refine ⟨exists_ne_of_ascending ((pairwise_ascending _).filter _) hlen, fun {m} hm => ?_⟩
  obtain ⟨hflat, hunknown⟩ := mem_crossed hm
  exact ⟨fun he => hany (he ▸ hflat), hunknown⟩

end Store

def NodeInvariant.crossing : NodeInvariant where
  At st node := ∀ id, node = .intersection id → ∃ ms, st.lists.get? id = some ms ∧
    Store.Intersecting ms
  widens hs h id he := by
    obtain ⟨ms, hms, hi⟩ := h id he
    exact ⟨ms, hs.lists.get? hms, hi⟩
  union _ _ _ he := by cases he
  intersection hp hms id he := by
    cases he
    exact ⟨_, hms, Store.intersecting_crossed hp⟩
  other _ hg id he := by
    rw [he] at hg
    cases hg

namespace Store

def Intersections (st : Store) : Prop := NodeInvariant.crossing.Holds st

theorem Intersections.members {st : Store} (h : st.Intersections) {t : TypeId} {id : ListId}
    (hl : st.lookup t = some (.intersection id)) :
    ∃ ms, st.lists.get? id = some ms ∧ Intersecting ms :=
  h.node t _ hl id rfl

/-- The store was extended by intersections only. -/
structure Crosses (st st' : Store) : Prop where
  grown : st.Extends st'
  fresh {t : TypeId} {node : Node} : st.size ≤ t → st'.lookup t = some node →
    ∃ id, node = .intersection id

section Crosses

variable {st st' : Store}

theorem lookup_outside {t : TypeId} (ht : st.size ≤ t) : st.lookup t = none :=
  lookup_of_cells rfl ht

theorem Crosses.refl (st : Store) : st.Crosses st :=
  ⟨.refl st, fun ht hl => by cases (lookup_outside ht).symm.trans hl⟩

theorem Crosses.trans {st'' : Store} (h : st.Crosses st') (h' : st'.Crosses st'') :
    st.Crosses st'' := by
  refine ⟨h.grown.trans h'.grown, fun {t node} ht hl => ?_⟩
  rcases Nat.lt_or_ge t st'.size with hlt | hge
  · rw [h'.grown.lookup hlt] at hl
    exact h.fresh ht hl
  · exact h'.fresh hge hl

/-- Building an intersection adds intersections only. -/
theorem crosses_mkIntersection (st : Store) (types : List TypeId) :
    st.Crosses ((mkIntersection types).run st).2 := by
  rw [run_mkIntersection]
  cases st.intersectionPlan types with
  | inl t => exact .refl st
  | inr ms =>
    show st.Crosses ((intern (.intersection ((internList ms).run st).1)).run
        ((internList ms).run st).2).2
    refine ⟨(extends_internList ms st).trans (extends_intern _ _), fun {t node} ht hl => ?_⟩
    have hn (kind : Intrinsic) : Node.intersection ((internList ms).run st).1 ≠ .intrinsic kind :=
      fun h => by cases h
    have ht : ((internList ms).run st).2.size ≤ t := ht
    obtain ⟨_, _, rfl⟩ := Discipline.intern_new hn ht hl
    exact ⟨_, rfl⟩

/-- A type is what it was, or is an intersection in place of nothing. -/
theorem Crosses.lookup_cases (h : st.Crosses st') (t : TypeId) :
    st'.lookup t = st.lookup t ∨ st.lookup t = none ∧
    ∃ id, st'.lookup t = some (.intersection id) := by
  rcases Nat.lt_or_ge t st.size with ht | ht
  · exact .inl (h.grown.lookup ht)
  · cases hl : st'.lookup t with
    | none => exact .inl (lookup_outside ht).symm
    | some node =>
      obtain ⟨id, rfl⟩ := h.fresh ht hl
      exact .inr ⟨lookup_outside ht, id, rfl⟩

/-- Intersections rule no values out. -/
theorem Crosses.isDisjoint (h : st.Crosses st') (ms : List TypeId) :
    st'.isDisjoint ms = st.isDisjoint ms := by
  have primitive : st'.primitive? = st.primitive? := by
    funext t
    unfold Store.primitive?
    rcases h.lookup_cases t with he | ⟨he, id, hi⟩
    · rw [he]
    · rw [he, hi]
  have literal : st'.isLiteral = st.isLiteral := by
    funext t
    unfold Store.isLiteral
    rcases h.lookup_cases t with he | ⟨he, id, hi⟩
    · rw [he]
    · rw [he, hi]
  have object : st'.isObjectLike = st.isObjectLike := by
    funext t
    unfold Store.isObjectLike
    rcases h.lookup_cases t with he | ⟨he, id, hi⟩
    · rw [he]
    · rw [he, hi]
  rw [Store.isDisjoint, Store.isDisjoint, primitive, literal, object]

variable (hi : st.Intersections) (h : st.Crosses st')

include hi h

theorem Intersections.members_crosses {t : TypeId} (ht : t < st.size) :
    st'.intersectionMembers t = st.intersectionMembers t := by
  unfold intersectionMembers
  rw [h.grown.lookup ht]
  split
  · rename_i id hl
    obtain ⟨ms, hms, _⟩ := hi.members hl
    rw [list, list, hms, h.grown.lists.get? hms]
  · rfl

/-- What is planned does not depend on further intersections. -/
theorem Intersections.plan_crosses {types : List TypeId} (ht : ∀ t ∈ types, t < st.size) :
    st'.intersectionPlan types = st.intersectionPlan types := by
  have hmembers : types.flatMap st'.intersectionMembers = types.flatMap st.intersectionMembers :=
    List.flatMap_congr fun t hm => hi.members_crosses h (ht t hm)
  have hcrossed : st'.crossed types = st.crossed types := by rw [crossed, crossed, hmembers]
  simp only [intersectionPlan, hmembers, hcrossed, h.isDisjoint]

omit h in
/-- An intersection is found again, as long as only intersections are built. -/
theorem Intersections.repeats_mkIntersection {types : List TypeId} (ht : ∀ t ∈ types, t < st.size)
    (h : Crosses ((Store.mkIntersection types).run st).2 st') :
    (Store.mkIntersection types).run st' =
      (((Store.mkIntersection types).run st).1, st') := by
  have hplan := hi.plan_crosses ((crosses_mkIntersection st types).trans h) ht
  have hgrown := h.grown.grows
  rw [run_mkIntersection] at hgrown
  rw [run_mkIntersection, run_mkIntersection, hplan]
  cases hp : st.intersectionPlan types with
  | inl t => rfl
  | inr ms =>
    rw [hp] at hgrown
    have hintern (id : ListId) (st : Store) : Repeats (Store.intern (.intersection id)) st :=
      repeats_intern fun _ h => by cases h
    exact (repeats_internList ms).bind (hintern _ _) (extends_intern _ _).grows st' hgrown

end Crosses

/-- What does not fit together does not fit together with more. -/
theorem isDisjoint_mono {st : Store} {ms ns : List TypeId} (hn : ms.Nodup) (h : ms ⊆ ns)
    (hd : st.isDisjoint ms = true) : st.isDisjoint ns = true := by
  have hliterals : (ms.filter st.isLiteral).length ≤ (ns.filter st.isLiteral).length :=
    (hn.filter _).length_le_of_subset (List.filter_subset _ h)
  have hprimitives : ms.filterMap st.primitive? ⊆ ns.filterMap st.primitive? :=
    List.filterMap_subset _ h
  simp only [isDisjoint, Bool.or_eq_true, decide_eq_true_eq, Bool.and_eq_true, List.any_eq_true,
    Bool.not_eq_true', List.isEmpty_eq_false_iff_exists_mem] at hd ⊢
  rcases hd with (hd | ⟨p, hp, q, hq, hne⟩) | ⟨⟨p, hp⟩, m, hm, ho⟩
  · exact .inl (.inl (Nat.lt_of_lt_of_le hd hliterals))
  · exact .inl (.inr ⟨p, hprimitives hp, q, hprimitives hq, hne⟩)
  · exact .inr ⟨⟨p, hprimitives hp⟩, m, h hm, ho⟩

section Regrouping

variable {st : Store} {xs ys : List TypeId}

/-- The members of several types taken together. -/
theorem mem_crossing {m : TypeId} : m ∈ ascending (xs.flatMap st.intersectionMembers) ↔
    ∃ t ∈ xs, m ∈ st.intersectionMembers t := by
  rw [mem_ascending, List.mem_flatMap]

/-- `unknown` does not count. -/
theorem intersectionPlan_congr (h : ∀ m, m ≠ .unknown → ((∃ t ∈ xs, m ∈ st.intersectionMembers t) ↔
    ∃ t ∈ ys, m ∈ st.intersectionMembers t)) : st.intersectionPlan xs = st.intersectionPlan ys := by
  have hmem (m : TypeId) (hm : m ≠ .unknown) : m ∈ ascending (xs.flatMap st.intersectionMembers) ↔
      m ∈ ascending (ys.flatMap st.intersectionMembers) := by
      rw [mem_crossing, mem_crossing, h m hm]
  have hcrossed : st.crossed xs = st.crossed ys := by
    apply ((pairwise_ascending _).filter _).eq_of_mem_iff ((pairwise_ascending _).filter _)
    intro m
    simp only [List.mem_filter, decide_eq_true_eq]
    exact and_congr_left fun hm => hmem m hm
  simp only [intersectionPlan, hmem .never (by decide), hmem .any (by decide), hcrossed]

/-- Types that do not fit together leave nothing, whatever is added. -/
theorem intersectionPlan_disjoint (h : st.crossed xs ⊆ st.crossed ys)
    (hlen : 2 ≤ (st.crossed xs).length) (hd : st.isDisjoint (st.crossed xs) = true)
    (hany : TypeId.any ∉ ascending (ys.flatMap st.intersectionMembers)) :
    st.intersectionPlan ys = .inl .never := by
  have hnodup : (st.crossed xs).Nodup :=
    ((pairwise_ascending _).filter _).imp fun h => Nat.ne_of_lt h
  have hlen' := Nat.le_trans hlen (hnodup.length_le_of_subset h)
  have hd' := isDisjoint_mono hnodup h hd
  unfold intersectionPlan
  rw [if_neg hany]
  rcases hc : st.crossed ys with _ | ⟨m, _ | ⟨n, rest⟩⟩
  · simp [hc] at hlen'
  · simp [hc] at hlen'
  · rw [hc] at hd'
    simp only [hd', if_true, ite_self]

theorem mem_crossed_iff {m : TypeId} : m ∈ st.crossed xs ↔
    m ≠ .unknown ∧ ∃ t ∈ xs, m ∈ st.intersectionMembers t := by
  simp only [crossed, List.mem_filter, decide_eq_true_eq, mem_crossing, and_comm]

theorem crossed_subset (h : xs ⊆ ys) : st.crossed xs ⊆ st.crossed ys := by
  intro m hm
  obtain ⟨hu, t, ht, hm⟩ := mem_crossed_iff.mp hm
  exact mem_crossed_iff.mpr ⟨hu, t, h ht, hm⟩

theorem intersectionMembers_plain {t : TypeId} (h : ∀ id, st.lookup t ≠ some (.intersection id)) :
    st.intersectionMembers t = [t] := by
  unfold intersectionMembers
  split
  · rename_i id hl
    exact absurd hl (h id)
  · rfl

/-- An intersection that was just built has the members that were crossed. -/
theorem intersectionMembers_interned (hi : st.Indexed) {ms : List TypeId} {a : TypeId}
    (h : (internList ms >>= fun id => intern (.intersection id)).run st = (a, st)) :
    st.intersectionMembers a = ms := by
  obtain ⟨id, hl, hms⟩ := interned_members hi (fun _ _ h => by cases h) h
  unfold intersectionMembers
  rw [hl]
  exact hms

variable (hi : st.Intersections)

include hi

/-- No type but `any` brings `any` in. -/
theorem Intersections.any_not_mem (hx : TypeId.any ∉ xs) :
    TypeId.any ∉ ascending (xs.flatMap st.intersectionMembers) := by
  intro h
  obtain ⟨t, ht, hm⟩ := mem_crossing.mp h
  unfold intersectionMembers at hm
  split at hm
  · rename_i id hl
    obtain ⟨ms, hms, hplain⟩ := hi.members hl
    rw [list, hms] at hm
    exact (hplain.plain hm).1 rfl
  · exact hx (List.mem_singleton.mp hm ▸ ht)

/-- What is left alone is no intersection. -/
theorem Intersections.members_only {only : TypeId} (h : st.crossed xs = [only]) :
    st.intersectionMembers only = [only] := by
  have hmem {m : TypeId} : m ≠ .unknown ∧ (∃ t ∈ xs, m ∈ st.intersectionMembers t) ↔ m = only := by
    rw [← mem_crossed_iff, h, List.mem_singleton]
  obtain ⟨_, t, ht, hm⟩ := hmem.mpr rfl
  -- an intersection would have left two members
  have hplain (id : ListId) : st.lookup t ≠ some (.intersection id) := by
    intro hl
    obtain ⟨ms, hms, hmany⟩ := hi.members hl
    have hlist : st.intersectionMembers t = ms := by
      unfold intersectionMembers
      rw [hl]
      show st.list id = ms
      rw [list, hms]
      rfl
    obtain ⟨m, hm, n, hn, hne⟩ := hmany.several
    have hm := hmem.mp ⟨(hmany.plain hm).2, t, ht, hlist ▸ hm⟩
    have hn := hmem.mp ⟨(hmany.plain hn).2, t, ht, hlist ▸ hn⟩
    exact hne (hm.trans hn.symm)
  rw [intersectionMembers_plain hplain] at hm
  obtain rfl := List.mem_singleton.mp hm
  exact intersectionMembers_plain hplain

/-- Either nothing is left of the types, whatever is added, or what they have become stands for
them. -/
theorem Intersections.mkIntersection_cases (hf : st.Founded) (hx : TypeId.any ∉ xs) {a : TypeId}
    (h : (Store.mkIntersection xs).run st = (a, st)) :
    (a = .never ∧ ∀ types, TypeId.any ∉ types → st.intersectionPlan (xs ++ types) = .inl .never) ∨
      ∀ m, m ≠ .unknown → (m ∈ st.intersectionMembers a ↔
        ∃ t ∈ xs, m ∈ st.intersectionMembers t) := by
  have hany := hi.any_not_mem hx
  have hold {t : TypeId} (hp : st.intersectionPlan xs = .inl t) : a = t := by
    rw [run_mkIntersection, hp] at h
    exact (congrArg Prod.fst h).symm
  by_cases hnever : TypeId.never ∈ ascending (xs.flatMap st.intersectionMembers)
  · refine .inl ⟨hold (by rw [intersectionPlan, if_pos hnever]), fun types _ => ?_⟩
    obtain ⟨t, ht, hm⟩ := mem_crossing.mp hnever
    rw [intersectionPlan, if_pos (mem_crossing.mpr ⟨t, List.mem_append_left types ht, hm⟩)]
  · rcases hc : st.crossed xs with _ | ⟨only, _ | ⟨other, rest⟩⟩
    · have hplan : st.intersectionPlan xs = .inl .unknown := by
        simp only [intersectionPlan, if_neg hnever, if_neg hany, hc]
      have hunknown : st.intersectionMembers .unknown = [.unknown] :=
        intersectionMembers_plain fun id hl => by cases (hf.lookup .unknown).symm.trans hl
      have hnone (m : TypeId) : m ∉ st.crossed xs := by simp [hc]
      right
      intro m hm
      rw [hold hplan, hunknown, List.mem_singleton]
      exact ⟨fun he => absurd he hm, fun he => absurd (mem_crossed_iff.mpr ⟨hm, he⟩) (hnone m)⟩
    · have hplan : st.intersectionPlan xs = .inl only := by
        simp only [intersectionPlan, if_neg hnever, if_neg hany, hc]
      right
      intro m hm
      rw [hold hplan, hi.members_only hc, ← hc, mem_crossed_iff, and_iff_right hm]
    · cases hd : st.isDisjoint (only :: other :: rest) with
      | true =>
        have hplan : st.intersectionPlan xs = .inl .never := by
          simp only [intersectionPlan, if_neg hnever, if_neg hany, hc, hd, if_true]
        have hlen : 2 ≤ (st.crossed xs).length := by simp [hc]
        refine .inl ⟨hold hplan, fun types ht => ?_⟩
        apply intersectionPlan_disjoint (crossed_subset (List.subset_append_left xs types))
          hlen (hc ▸ hd)
        exact hi.any_not_mem fun hm => (List.mem_append.mp hm).elim hx ht
      | false =>
        have hplan : st.intersectionPlan xs = .inr (only :: other :: rest) := by
          simp only [intersectionPlan, if_neg hnever, if_neg hany, hc, hd,
            Bool.false_eq_true, if_false]
        rw [run_mkIntersection, hplan] at h
        right
        intro m hm
        rw [intersectionMembers_interned hi.indexed h, ← hc, mem_crossed_iff, and_iff_right hm]

/-- An intersection may stand for what it was made of. -/
theorem Intersections.run_regroup (hf : st.Founded) (hx : TypeId.any ∉ xs) (hy : TypeId.any ∉ ys)
    {a : TypeId} (h : (Store.mkIntersection xs).run st = (a, st)) :
    (Store.mkIntersection (a :: ys)).run st = (Store.mkIntersection (xs ++ ys)).run st := by
  have hplan : st.intersectionPlan (a :: ys) = st.intersectionPlan (xs ++ ys) := by
    rcases hi.mkIntersection_cases hf hx h with ⟨rfl, hnever⟩ | hstands
    · have hmem : TypeId.never ∈ ascending
          ((TypeId.never :: ys).flatMap st.intersectionMembers) := by
        have hself : st.intersectionMembers .never = [.never] :=
          intersectionMembers_plain fun id hl => by cases (hf.lookup .never).symm.trans hl
        exact mem_crossing.mpr ⟨.never, List.mem_cons_self .., hself ▸ List.mem_singleton.mpr rfl⟩
      rw [hnever ys hy, intersectionPlan, if_pos hmem]
    · apply intersectionPlan_congr
      intro m hm
      simp only [List.mem_cons, List.mem_append, or_and_right, exists_or,
        exists_eq_left, hstands m hm]
  rw [run_mkIntersection, run_mkIntersection, hplan]

end Regrouping

end Store

def Merging.intersections : Merging .contravariant where
  Good st := st.Intersections ∧ st.Founded
  Fit st t := t < st.size ∧ t ≠ .any
  Later st st' := st.Crosses st'
  refl := .refl
  trans h h' := h.trans h'
  kept h ht := ⟨Nat.lt_of_lt_of_le ht.1 h.grown.size, ht.2⟩
  merged {st types} hg _ := by
    have hcrosses := st.crosses_mkIntersection types
    exact ⟨⟨NodeInvariant.Holds.mkIntersection hg.1 types, hcrosses.grown.founded hg.2⟩, hcrosses⟩
  repeats hg ht h := hg.1.repeats_mkIntersection (fun t hm => (ht t hm).1) h
  regroup hg hx hy h :=
    hg.1.run_regroup hg.2 (fun hm => (hx _ hm).2 rfl) (fun hm => (hy _ hm).2 rfl) h

namespace Operation

/-- Intersections of types other than `any` are built in any order and any groups, directly after
one another; at least two candidates are gathered in any order. -/
theorem intersections_regroup {ops : List Operation} (h : ∀ op ∈ ops, op.isRaw = false) :
    let st := afterAll .initial ops
    (∀ xs ys : List TypeId, (∀ t ∈ xs ++ ys, t < st.size ∧ t ≠ .any) →
      Variance.contravariant.Regroups st xs ys) ∧
    ∀ (first second : TypeId) (rest : List TypeId),
      (∀ t ∈ first :: second :: rest, t < st.size ∧ t ≠ .any) →
      Variance.contravariant.Gathers st first (second :: rest) := by
  intro st
  have hg : Merging.intersections.Good st :=
    ⟨NodeInvariant.holds_afterAll (NodeInvariant.holds_initial _) h,
      (reached_afterAll .initial ops).founded⟩
  constructor
  · intro xs ys ht
    exact Merging.intersections.regroups hg (fun t hm => ht t (List.mem_append_left ys hm))
      fun t hm => ht t (List.mem_append_right xs hm)
  · intro first second rest ht
    apply Merging.intersections.gathers hg ht
    intro st' hg' hlater
    exact Merging.intersections.run_mergeAll_cons hg' fun t hm =>
      Merging.intersections.kept hlater (ht t hm)

/-- One intersection with the type that will be built next, and one with a placeholder that is made
an object afterwards, beside `string`. -/
def hastyCrossing : List Operation :=
  [.build (.param "T"), .build (.param "U"), .build (.intersection [12, 17]), .build .reserve,
    .build (.intersection [15, .string]), .build (.defineObject 15 {})]

theorem intersections_regroup_hastyCrossing :
    (∀ op ∈ hastyCrossing, op.isRaw = false) ∧
      let st := afterAll .initial hastyCrossing
      let part := (Store.mkIntersection [14, 13]).run st
      (part.1 = 17 ∧ part.2.intersectionMembers 17 = [12, 13, 17] ∧
        Variance.contravariant.Regroups st [14, 13] [.string]) ∧
      (((Store.mkIntersection [16]).run st).1 = .never ∧
        Variance.contravariant.Regroups st [16] [13]) ∧
      Variance.contravariant.Gathers st 13 [16, 14, .unknown] := by
  have hraw : ∀ op ∈ hastyCrossing, op.isRaw = false := by decide
  obtain ⟨hregroup, hgather⟩ := intersections_regroup hraw
  exact ⟨hraw, ⟨by decide +kernel, by decide +kernel, hregroup _ _ (by decide +kernel)⟩,
    ⟨by decide +kernel, hregroup _ _ (by decide +kernel)⟩, hgather _ _ _ (by decide +kernel)⟩

end Operation

end TypeCalculus
