import TypeCalculus.Proofs.Merging

namespace TypeCalculus

namespace Store

variable {st : Store}

/-- What is dropped from some of the members is dropped from all of them. -/
theorem joined_part (hf : st.Founded) (F G : TypeId → Prop) (m : TypeId) :
    st.Joined (fun m => st.Joined F m ∨ G m) m ↔ st.Joined (fun m => F m ∨ G m) m := by
  have pair (F G : TypeId → Prop) (m : TypeId) :
      st.Joined (fun m => st.Joined F m ∨ st.Joined G m) m ↔ st.Joined (fun m => F m ∨ G m) m := by
    have h := joined_nested hf (fun i m => bif i then F m else G m) m
    simpa [or_comm] using h
  have twice (m : TypeId) : st.Joined (st.Joined F) m ↔ st.Joined F m := by
    have h := joined_nested hf (fun (_ : Unit) => F) m
    simpa using h
  calc st.Joined (fun m => st.Joined F m ∨ G m) m
    _ ↔ st.Joined (fun m => st.Joined (st.Joined F) m ∨ st.Joined G m) m :=
      (pair (st.Joined F) G m).symm
    _ ↔ st.Joined (fun m => st.Joined F m ∨ st.Joined G m) m :=
      joined_congr (fun m => by rw [twice]) m
    _ ↔ st.Joined (fun m => F m ∨ G m) m := pair F G m

theorem mem_flat_cons (t : TypeId) (types : List TypeId) (m : TypeId) :
    m ∈ st.flat (t :: types) ↔ m ∈ st.unionMembers t ∨ m ∈ st.flat types := by
  simp [mem_flat]

theorem mem_flat_append (xs ys : List TypeId) (m : TypeId) :
    m ∈ st.flat (xs ++ ys) ↔ m ∈ st.flat xs ∨ m ∈ st.flat ys := by
  simp [mem_flat, or_and_right, exists_or]

/-- A union may stand for what it was made of. -/
theorem united_regroup (hw : st.WellFormed) {xs ys : List TypeId} {a : TypeId}
    (hx : ∀ t ∈ xs, t < st.size) (h : (mkUnion xs).run st = (a, st)) :
    st.united (a :: ys) = st.united (xs ++ ys) := by
  apply (pairwise_united _).eq_of_mem_iff (pairwise_united _)
  intro m
  calc m ∈ st.united (a :: ys)
    _ ↔ st.Joined (· ∈ st.flat (a :: ys)) m := mem_united _ m
    _ ↔ st.Joined (fun m => st.Joined (· ∈ st.flat xs) m ∨ m ∈ st.flat ys) m := by
      apply joined_congr
      intro m
      rw [mem_flat_cons, mem_unionMembers_mkUnion hw hx h]
    _ ↔ st.Joined (fun m => m ∈ st.flat xs ∨ m ∈ st.flat ys) m := joined_part hw.founded _ _ m
    _ ↔ st.Joined (· ∈ st.flat (xs ++ ys)) m :=
      joined_congr (fun m => (mem_flat_append xs ys m).symm) m
    _ ↔ m ∈ st.united (xs ++ ys) := (mem_united _ m).symm

end Store

/-- Users who keep to the typed discipline only ever add to a store, and make containers of
placeholders. -/
theorem Operation.grows_afterAll {st : Store} (hg : Discipline.Good .typed st)
    {ops : List Operation} (h : AllAccepted .typed st ops) : st.Grows (afterAll st ops) := by
  have hkept : Discipline.Good .typed (afterAll st ops) ∧ st.Grows (afterAll st ops) := by
    apply h.preserves (P := fun st' => Discipline.Good .typed st' ∧ st.Grows st')
      ⟨hg, (Store.Extends.refl st).grows⟩
    rintro st' op ⟨hg', hgrows⟩ haccepted
    have hout := outcome (fun h => by cases h) hg' haccepted
    refine ⟨hout.good hg', hgrows.trans ?_⟩
    generalize op.after st' = st'' at hout
    cases hout with
    | evolved h _ => exact h.grown.grows
    | defined h _ _ _ hc _ hk => exact h.grown.grows.trans (Store.grows_filled hc (hk rfl).1)
  exact hkept.2

def Merging.unions : Merging .covariant where
  Good st := Discipline.Good .typed st ∧ st.Reached
  Fit st t := t < st.size
  Later st st' := st.Grows st'
  refl st := (Store.Extends.refl st).grows
  trans h h' := h.trans h'
  kept h ht := Nat.lt_of_lt_of_le ht h.size
  merged {st types} hg ht := by
    have hfit : ∀ t ∈ types, Discipline.Fit .typed st t :=
      fun t hm => ⟨fun _ => ht t hm, fun h => by cases h⟩
    obtain ⟨hev, _⟩ := (Discipline.runs_mkUnion hg.1 hfit).leads
    exact ⟨⟨hev.good hg.1, hev.reached hg.2⟩, hev.grown.grows⟩
  repeats hg ht h := Store.repeats_mkUnion hg.1.wellFormed ht _ h
  regroup hg hx _ h := Store.run_mkUnion_congr (Store.united_regroup hg.1.wellFormed hx h)

namespace Store

/-- `never` adds nothing to a union. -/
theorem run_mkUnion_never (st : Store) (types : List TypeId) :
    (mkUnion (.never :: types)).run st = (mkUnion types).run st := by
  have hflat : st.flat (.never :: types) = st.flat types := rfl
  rw [run_mkUnion, run_mkUnion, unionPlan, unionPlan, kept, kept, hflat]

theorem Founded.unionMembers_any {st : Store} (hf : st.Founded) :
    st.unionMembers .any = [.any] := by
  unfold unionMembers
  rw [show TypeId.any = Intrinsic.any.id from rfl, hf.lookup]
  rfl

/-- `any` is all that is left of a union that it is in. -/
theorem Founded.run_mkUnion_any {st : Store} (hf : st.Founded) {types : List TypeId}
    (h : TypeId.any ∈ types) : (mkUnion types).run st = (.any, st) := by
  have hflat : TypeId.any ∈ st.flat types :=
    (st.mem_flat types).mpr ⟨.any, h, hf.unionMembers_any ▸ List.mem_singleton.mpr rfl⟩
  rw [run_mkUnion, unionPlan, if_pos hflat]

end Store

namespace Operation

/-- Unions are built in any order and any groups. What the union of some types is, it stays,
whatever is done later; a union of one type is that type, `never` adds nothing and `any` takes
all. -/
theorem unions_regroup {ops : List Operation} (h : AllAccepted .typed .initial ops) :
    let st := afterAll .initial ops
    (∀ xs ys : List TypeId, (∀ t ∈ xs ++ ys, t < st.size) → Variance.covariant.Regroups st xs ys) ∧
    (∀ xs : List TypeId, (∀ t ∈ xs, t < st.size) →
      let union := (Store.mkUnion xs).run st
      ∀ later, AllAccepted .typed union.2 later →
        (Store.mkUnion xs).run (afterAll union.2 later) = (union.1, afterAll union.2 later)) ∧
    (∀ t : TypeId, (Store.mkUnion [t]).run st = (t, st)) ∧
    (∀ xs : List TypeId, (Store.mkUnion (.never :: xs)).run st = (Store.mkUnion xs).run st) ∧
    (∀ xs : List TypeId, .any ∈ xs → (Store.mkUnion xs).run st = (.any, st)) ∧
    ∀ (first : TypeId) (rest : List TypeId), (∀ t ∈ first :: rest, t < st.size) →
      Variance.covariant.Gathers st first rest := by
  intro st
  have hg : Discipline.Good .typed st := h.good
  have hr : st.Reached := reached_afterAll .initial ops
  have self {st : Store} (hg : Discipline.Good .typed st) (hr : st.Reached) (t : TypeId) :
      (Store.mkUnion [t]).run st = (t, st) :=
    Store.mkUnion_self (hg.tidy rfl) hr.shared (hg.anchored fun h => by cases h) t
  refine ⟨fun xs ys ht => ?_, fun xs ht later hlater => ?_, self hg hr, st.run_mkUnion_never,
    fun xs hany => hr.founded.run_mkUnion_any hany, fun first rest ht => ?_⟩
  · exact Merging.unions.regroups ⟨hg, hr⟩ (fun t hm => ht t (List.mem_append_left ys hm))
      fun t hm => ht t (List.mem_append_right xs hm)
  · obtain ⟨⟨hg', _⟩, _⟩ := Merging.unions.merged ⟨hg, hr⟩ ht
    exact Store.repeats_mkUnion hg.wellFormed ht _ (grows_afterAll hg' hlater)
  · apply Merging.unions.gathers ⟨hg, hr⟩ ht
    intro st' hg' hgrown
    have hlt : ∀ t ∈ first :: rest, t < st'.size :=
      fun t hm => Nat.lt_of_lt_of_le (ht t hm) hgrown.size
    exact Merging.unions.run_mergeAll hg' (fun t hm => hlt t (List.mem_append_left rest hm))
      (fun t hm => hlt t (List.mem_cons_of_mem first hm)) (self hg'.1 hg'.2 first)

/-- A placeholder is put into a union with `string` and made an object later; a literal is at
hand. -/
def lateMember : List Operation :=
  [.build .reserve, .build (.union [12, .string]), .build (.literal (.string "a")),
    .build (.defineObject 12 { fields := [{ name := "next", type := 13 }] })]

theorem unions_regroup_lateMember :
    AllAccepted .typed .initial lateMember ∧
      let st := afterAll .initial lateMember
      let part := (Store.mkUnion [14, 12]).run st
      (part.1 = 15 ∧ ((Store.mkUnion [part.1, .string]).run part.2).1 = 13 ∧
        Variance.covariant.Regroups st [14, 12] [.string]) ∧
      (Store.mkUnion [14, 12]).run (afterAll part.2 [.build (.array 15)]) =
        (part.1, afterAll part.2 [.build (.array 15)]) ∧
      (Store.mkUnion [.any, 15]).run st = (.any, st) ∧
      Variance.covariant.Gathers st 14 [.string, 12] := by
  have haccepted : AllAccepted .typed .initial lateMember :=
    allAccepted_of_builds (by decide +kernel)
  obtain ⟨hregroup, hlater, _, _, hany, hgather⟩ := unions_regroup haccepted
  refine ⟨haccepted, ⟨by decide +kernel, by decide +kernel, hregroup _ _ (by decide +kernel)⟩, ?_,
    ?_, ?_⟩
  · exact hlater _ (by decide +kernel) _ (allAccepted_of_builds (by decide +kernel))
  · exact hany _ (by decide)
  · exact hgather _ _ (by decide +kernel)

/-- A union with a type that is not there yet, and that becomes a literal of the union's other
member. -/
def hastyMember : List Operation := [.build (.union [13, .string]), .build (.literal (.string "a"))]

theorem union_of_one_differs :
    (∀ op ∈ hastyMember, op.Typed) ∧ ((Store.mkUnion [13, .string]).run .initial).1 = 12 ∧
      12 < (afterAll .initial hastyMember).size ∧
      ((Store.mkUnion [12]).run (afterAll .initial hastyMember)).1 = .string ∧
      TypeId.string ≠ 12 := by
  refine ⟨fun op hm => ?_, by decide +kernel, by decide +kernel, by decide +kernel, by decide⟩
  rcases List.mem_pair.mp hm with rfl | rfl
  · trivial
  · trivial

end Operation

end TypeCalculus
