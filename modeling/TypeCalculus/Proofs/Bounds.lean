import TypeCalculus.Proofs.UnionAlgebra
import TypeCalculus.Proofs.Verdicts

namespace TypeCalculus

namespace Store

variable {st : Store}

section Targets

variable (hw : st.WellFormed)

include hw

/-- Members are older than the types they are members of. -/
theorem WellFormed.by_members {P : TypeId → Prop} (h : ∀ t, (∀ m, st.Member t m → P m) → P t)
    (t : TypeId) : P t := by
  induction t using Nat.strong_induction_on with
  | _ t ih => exact h t fun m hm => ih m (hw.member_lt hm)

/-- To follow a single type wherever it goes, it is enough to follow it to the targets that are
neither unions nor intersections. -/
theorem Assignable.follow {a b t : TypeId} {f g : Form} (ha : st.form? a = some f)
    (hf : f.isUnion = false) (hf' : f.isIntersection = false) (hnever : a ≠ .never)
    (hany : a ≠ .any) (hb : st.form? b = some g) (hg : g.isUnion = false)
    (plain : ∀ t k, st.form? t = some k → k.isUnion = false → k.isIntersection = false →
      st.Assignable a t → st.Assignable b t)
    (h : st.Assignable a t) : st.Assignable b t := by
  revert h
  apply hw.by_members (P := fun t => st.Assignable a t → st.Assignable b t)
  intro t ih h
  have hd : (st.form? t).isSome := by
    rcases h.unfold with rfl | ⟨hd, _⟩
    · simp [ha]
    · exact hd
  obtain ⟨k, hk⟩ := Option.isSome_iff_exists.mp hd
  -- The clause decides at a target with members: it is no top type, and it is not the subject.
  have hclause (hm : k.isUnion = true ∨ k.isIntersection = true) :
      st.Clause st.Assignable (fun a b => st.Assignable b a) a t := by
    rcases h.unfold with rfl | ⟨_, htop | he | he | hc⟩
    · cases ha.symm.trans hk
      simp [hf, hf'] at hm
    · obtain ⟨kind, hkind⟩ := hw.founded.form_top htop
      cases hk.symm.trans hkind
      simp [Form.isUnion, Form.isIntersection] at hm
    · exact absurd he hnever
    · exact absurd he hany
    · exact hc
  cases k with
  | union ms =>
    obtain ⟨m, hm, hr⟩ := (clause_unionPattern ha hf hk).mp (hclause (.inl rfl))
    exact Clause.assignable (.unionPattern hb hg hk hm (ih m ⟨ms, .inl hk, hm⟩ hr))
  | intersection ms =>
    have hall := (clause_intersectionPattern ha hf hk).mp (hclause (.inr rfl))
    exact Clause.assignable
      (.intersectionPattern hb hg hk fun m hm => ih m ⟨ms, .inr hk, hm⟩ (hall m hm))
  | _ => exact plain t _ hk rfl rfl h

/-- Most intrinsic types go nowhere but to themselves, the top types, and unions and
intersections. -/
theorem WellFormed.intrinsic_target (kind : Intrinsic)
    (hkind : kind.id ∉ [TypeId.any, .never, .undefined, .object]) {t : TypeId} {k : Form}
    (hk : st.form? t = some k) (hu : k.isUnion = false) (hi : k.isIntersection = false)
    (h : st.Assignable kind.id t) : t = kind.id ∨ t.isTop = true := by
  rcases h.unfold with he | ⟨_, htop | he | he | hc⟩
  · exact .inl he.symm
  · exact .inr htop
  · exact absurd (by simp [he]) hkind
  · exact absurd (by simp [he]) hkind
  · have hparts := (clause_parts (hw.founded.form kind) hk rfl rfl hu hi).mp hc
    cases hparts with
    | @intrinsic _ other h =>
      cases other <;> simp only [IntrinsicClause, reduceCtorEq, false_and, exists_false,
        or_false] at h
      · exact absurd (by simp [h]) hkind
      · exact absurd (by simp [h]) hkind

/-- A type that takes `unknown` takes everything. -/
theorem Assignable.of_unknown {a t : TypeId} {f : Form} (h : st.Assignable .unknown t)
    (ha : st.form? a = some f) (hf : f.isUnion = false) : st.Assignable a t := by
  have hunknown := hw.founded.form .unknown
  refine h.follow hw hunknown rfl rfl (by decide) (by decide) ha hf fun t k hk hu hi h => ?_
  have hd : (st.form? t).isSome := by simp [hk]
  rcases hw.intrinsic_target .unknown (by decide) hk hu hi h with rfl | htop
  · exact assignable_top hd rfl
  · exact assignable_top hd htop

/-- Where a primitive goes, its literals go. -/
theorem Assignable.of_primitive {x t : TypeId} {value : Literal}
    (hx : st.form? x = some (.literal value)) (h : st.Assignable value.primitive t) :
    st.Assignable x t := by
  obtain ⟨kind, hkind, hid⟩ : ∃ kind : Intrinsic,
      kind.id ∉ [TypeId.any, .never, .undefined, .object] ∧ kind.id = value.primitive := by
    cases value
    · exact ⟨.string, by decide, rfl⟩
    · exact ⟨.number, by decide, rfl⟩
    · exact ⟨.boolean, by decide, rfl⟩
    · exact ⟨.bigint, by decide, rfl⟩
  rw [← hid] at h
  refine h.follow hw (hw.founded.form kind) rfl rfl (fun he => hkind (by simp [he]))
    (fun he => hkind (by simp [he])) hx rfl fun t k hk hu hi h => ?_
  have hd : (st.form? t).isSome := by simp [hk]
  rcases hw.intrinsic_target kind hkind hk hu hi h with rfl | htop
  · rw [hid]
    exact Assignable.of_literal hw hx (.refl x)
  · exact assignable_top hd htop

end Targets

section Unions

variable (hw : st.WellFormed)

include hw

theorem Assignable.mem_unionMembers {m x t : TypeId} (h : st.Assignable m t) (hm : st.Concrete m)
    (hx : x ∈ st.unionMembers m) : st.Assignable x t := by
  unfold unionMembers at hx
  split at hx
  · simp at hx
  · split at hx
    · rename_i ms hl
      have hform : st.form? m = some (.union (st.list ms)) := form_of_lookup hl
      exact h.member hw hform hx (kind_concrete.child hw hm (mentions_of_form hform ▸ hx))
    · exact List.mem_singleton.mp hx ▸ h

omit hw in
theorem assignable_of_unionMembers {m t : TypeId} (hd : (st.form? t).isSome)
    (h : ∀ x ∈ st.unionMembers m, st.Assignable x t) : st.Assignable m t := by
  obtain ⟨g, hg⟩ := Option.isSome_iff_exists.mp hd
  unfold unionMembers at h
  split at h
  · rename_i hn
    exact hn ▸ assignable_never hd
  · split at h
    · rename_i ms hl
      exact Clause.assignable (.unionSubject (form_of_lookup hl) hg h)
    · exact h m (List.mem_singleton.mpr rfl)

/-- A union is assignable to a type if all that it was built of is, and only then. -/
theorem assignable_mkUnion_iff (htidy : st.Tidy) {types : List TypeId}
    (ht : ∀ m ∈ types, st.Concrete m ∧ m ≠ .any) {u t : TypeId}
    (hrun : (Store.mkUnion types).run st = (u, st)) (hd : (st.form? t).isSome) :
    st.Assignable u t ↔ ∀ m ∈ types, st.Assignable m t := by
  have hrun : Action.run (Store.mkUnion types) st = (u, st) := hrun
  obtain ⟨_, hanswer⟩ := leads_mkUnion hw fun m hm => (ht m hm).1.valid
  rw [hrun] at hanswer
  dsimp only at hanswer
  have hsingle {x : TypeId} (hx : x ∈ st.flat types) : st.Concrete x ∧
      ∀ ms, st.form? x ≠ some (.union ms) :=
    ⟨kind_concrete.mem_flat hw (fun m hm => (ht m hm).1) hx, (hw.mem_flat hx).2⟩
  have hany : TypeId.any ∉ st.flat types := by
    intro hx
    obtain ⟨m, hm, hx⟩ := (st.mem_flat types).mp hx
    unfold unionMembers at hx
    split at hx
    · simp at hx
    · split at hx
      · rename_i ms hl
        have hregular : st.RegularUnion (st.list ms) := htidy.regular (form_of_lookup hl)
        exact (hregular.plain hx).1 rfl
      · exact (ht m hm).2 (List.mem_singleton.mp hx).symm
  constructor
  · intro h m hm
    -- What the union keeps goes with it; what it drops goes with what it keeps.
    have hkept {y : TypeId} (hy : y ∈ st.kept types) : st.Assignable y t := by
      obtain ⟨hc, hsingle⟩ := hsingle (st.mem_kept_flat types hy)
      cases hanswer with
      | any hx => exact absurd hx hany
      | unknown _ =>
        obtain ⟨f, hf⟩ := hc.defined
        refine h.of_unknown hw hf ?_
        cases f with
        | union ms => exact absurd hf (hsingle ms)
        | _ => rfl
      | never he => simp [he] at hy
      | only he =>
        rw [he, List.mem_singleton] at hy
        exact hy ▸ h
      | members _ hmade => exact h.member hw hmade.form hy hc
    apply assignable_of_unionMembers hd
    intro x hx
    rcases hw.mem_kept ((st.mem_flat types).mpr ⟨m, hm, hx⟩) with rfl | hy | ⟨value, hv, hy⟩
    · exact assignable_never hd
    · exact hkept hy
    · exact (hkept hy).of_primitive hw hv
  · intro h
    have hflat {x : TypeId} (hx : x ∈ st.flat types) : st.Assignable x t := by
      obtain ⟨m, hm, hx⟩ := (st.mem_flat types).mp hx
      exact (h m hm).mem_unionMembers hw (ht m hm).1 hx
    cases hanswer with
    | any hx => exact absurd hx hany
    | unknown hx => exact hflat hx
    | never _ => exact assignable_never hd
    | only he => exact hflat (st.mem_kept_flat types (by simp [he]))
    | members _ hmade =>
      obtain ⟨g, hg⟩ := Option.isSome_iff_exists.mp hd
      exact Clause.assignable
        (.unionSubject hmade.form hg fun m hm => hflat (st.mem_kept_flat types hm))

end Unions

/-- The type is a union, or an intersection with a union among its members. -/
def Branching (st : Store) (t : TypeId) : Prop :=
  ∃ ms, st.form? t = some (.union ms) ∨
    st.form? t = some (.intersection ms) ∧ ∃ m ∈ ms, ∃ ls, st.form? m = some (.union ls)

section Intersections

variable (hw : st.WellFormed)

include hw

/-- What goes to an intersection goes to those of its members that have no members themselves. -/
theorem Assignable.conjunct {a t m : TypeId} {ms : List TypeId} {k : Form} (h : st.Assignable a t)
    (ha : st.Concrete a) (ht : st.form? t = some (.intersection ms)) (hm : m ∈ ms)
    (hk : st.form? m = some k) (hu : k.isUnion = false) (hi : k.isIntersection = false) :
    st.Assignable a m := by
  have hd : (st.form? m).isSome := by simp [hk]
  apply h.of_single hw ha hd
  intro b f _ hf hb h
  rcases h.unfold with rfl | ⟨_, htop | rfl | rfl | hc⟩
  · exact Clause.assignable (.intersectionSubject ht hk hu hi hm (.refl m))
  · obtain ⟨kind, hkind⟩ := hw.founded.form_top htop
    cases ht.symm.trans hkind
  · exact assignable_never hd
  · exact assignable_any hd
  · exact (clause_intersectionPattern hf hb ht).mp hc m hm

/-- An intersection goes where one of its members goes. A member that is a union may go to several
members of a union, to which the intersection need not go. -/
theorem Assignable.of_conjunct (htidy : st.Tidy) {i m t : TypeId} {ms : List TypeId}
    (h : st.Assignable m t) (hi : st.form? i = some (.intersection ms)) (hm : m ∈ ms)
    (hc : st.Concrete m) (ht : st.Concrete t)
    (hk : (∀ ls, st.form? m ≠ some (.union ls)) ∨ ¬ st.Branching t) : st.Assignable i t := by
  have hregular {t : TypeId} {ms : List TypeId} (hf : st.form? t = some (.intersection ms)) :
      st.RegularIntersection ms := htidy.regular hf
  have hflat {t x : TypeId} {ms : List TypeId} {f : Form}
      (hf : st.form? t = some (.intersection ms))
      (hx : x ∈ ms) (hfx : st.form? x = some f) : f.isIntersection = false := by
    obtain ⟨node, hn, rfl⟩ := lookup_of_form hfx
    cases node with
    | intersection id => exact absurd hn ((hregular hf).flat hx id)
    | _ => rfl
  have hplain {t : TypeId} {k : Form} (hf : st.form? t = some k) (hu : k.isUnion = false)
      (hi' : k.isIntersection = false) (h : st.Assignable m t) : st.Assignable i t :=
    Clause.assignable (.intersectionSubject hi hf hu hi' hm h)
  obtain ⟨f, hf⟩ := hc.defined
  rcases hk with hk | hk
  · have hu : f.isUnion = false := by
      cases f with
      | union ls => exact absurd hf (hk ls)
      | _ => rfl
    obtain ⟨hany, _, hnever⟩ := (hregular hi).plain hm
    exact h.follow hw hf hu (hflat hi hm hf) hnever hany hi rfl fun t k hk hu hi' =>
      hplain hk hu hi'
  · obtain ⟨k, hkt⟩ := ht.defined
    cases k with
    | union ls => exact absurd ⟨ls, .inl hkt⟩ hk
    | intersection ls =>
      -- No member of the target is a union, so the member goes to each of them as a whole.
      refine Clause.assignable (.intersectionPattern hi rfl hkt fun x hx => ?_)
      have hmember : x ∈ st.mentions t := mentions_of_form hkt ▸ hx
      obtain ⟨g, hg⟩ := (kind_concrete.child hw ht hmember).defined
      have hu : g.isUnion = false := by
        cases g with
        | union js => exact absurd ⟨ls, .inr ⟨hkt, x, hx, js, hg⟩⟩ hk
        | _ => rfl
      exact hplain hg hu (hflat hkt hx hg) (h.conjunct hw hc hkt hx hg hu (hflat hkt hx hg))
    | _ => exact hplain hkt rfl rfl h

end Intersections

theorem Branching.earlier {st' : Store} (hw : st.WellFormed) (he : st.Extends st') {t : TypeId}
    (ht : t < st.size) (h : st'.Branching t) : st.Branching t := by
  obtain ⟨ms, h⟩ := h
  rw [hw.form_extends he ht] at h
  refine ⟨ms, h.imp_right fun ⟨hf, m, hm, ls, hls⟩ => ⟨hf, m, hm, ls, ?_⟩⟩
  have hmember : m ∈ st.mentions t := mentions_of_form hf ▸ hm
  rw [← hw.form_extends he ((hw.sound t).inside hmember)]
  exact hls

/-- Types that mention each other only, none of which is an infer variable or an empty
placeholder. -/
theorem concrete_of_closed (hf : st.Founded) (ts : List TypeId)
    (closed : ∀ t ∈ ts, ∀ c ∈ st.mentions t, c ∈ ts)
    (full : ∀ t ∈ ts, st.cells[t]? ≠ some (.reserved none))
    (free : ∀ t ∈ ts, t < st.size ∧ st.containsInfer t = false) {t : TypeId} (ht : t ∈ ts) :
    st.Concrete t :=
  ⟨(free t ht).1, (containsInfer_eq_false hf).mp (free t ht).2, settled_of_closed ts closed full ht⟩

end Store

namespace Operation

/-- Unions are joins: a union is assignable to a type if and only if all the types that it was built
of are, and each of these is assignable to the union. The union may be built and the questions may
be asked in any order, and whatever else may be added to the store between them. -/
theorem unions_join {ops : List Operation} (h : AllAccepted .typed .initial ops)
    {types : List TypeId} {t : TypeId} :
    let st := afterAll .initial ops
    (∀ m ∈ types, st.Concrete m ∧ m ≠ .any) → st.Concrete t → ∀ built, st.Supplemented built →
    let union := (Store.mkUnion types).run built
    (∀ st' whole (parts : TypeId → Bool), union.2.Answered st' union.1 t whole →
      (∀ m ∈ types, st.Answered st' m t (parts m)) → (whole = true ↔ ∀ m ∈ types, parts m = true)) ∧
    ∀ m ∈ types, ∀ st' answer, union.2.Answered st' m union.1 answer → answer = true := by
  intro st hm ht built hbuilt union
  have hg : Discipline.Good .typed st := h.good
  have hev := hbuilt.evolves hg
  have hg₁ := hev.good hg
  have hm₁ : ∀ m ∈ types, built.Concrete m := fun m hmem =>
    Store.kind_concrete.later hg.wellFormed hev.grown (hm m hmem).1
  have hfit : ∀ m ∈ types, Discipline.Fit .typed built m :=
    fun m hmem => ⟨fun _ => (hm₁ m hmem).valid, fun h => by cases h⟩
  have hunion : Discipline.Evolves .typed built union.2 :=
    (Discipline.runs_mkUnion hg₁ hfit).leads.1
  have hg₂ := hunion.good hg₁
  have hu : union.2.Concrete union.1 := (Store.kind_concrete.leads_mkUnion hg₁.wellFormed hm₁).2
  have hagain {st' : Store} (hs : union.2.Extends st') : (Store.mkUnion types).run st' =
      (union.1, st') :=
    Store.repeats_mkUnion hg₁.wellFormed (fun m hmem => (hm₁ m hmem).valid) st' hs.grows
  have hlater {st' : Store} (hs : union.2.Extends st') {x : TypeId} (hx : st.Concrete x) :
      st'.Concrete x :=
    Store.kind_concrete.later hg.wellFormed ((hev.grown.trans hunion.grown).trans hs) hx
  refine ⟨fun st' whole parts hwhole hparts => ?_, fun m hmem st' answer hanswer => ?_⟩
  · have ht₂ : union.2.Concrete t := hlater (.refl _) ht
    have hend := hwhole.evolves hg₂ hu ht₂
    have hg' := hend.good hg₂
    have hd : (st'.form? t).isSome := by
      obtain ⟨f, hf⟩ := (hlater hend.grown ht).defined
      simp [hf]
    rw [hwhole.iff_assignable hg₂ hu ht₂, Store.assignable_mkUnion_iff hg'.wellFormed (hg'.tidy rfl)
      (fun m hmem => ⟨hlater hend.grown (hm m hmem).1, (hm m hmem).2⟩) (hagain hend.grown) hd]
    exact forall₂_congr fun m hmem => ((hparts m hmem).iff_assignable hg (hm m hmem).1 ht).symm
  · have hm₂ : union.2.Concrete m := hlater (.refl _) (hm m hmem).1
    have hend := hanswer.evolves hg₂ hm₂ hu
    have hall : ∀ m ∈ types, st'.Concrete m := fun m hmem => hlater hend.grown (hm m hmem).1
    rw [hanswer.iff_assignable hg₂ hm₂ hu]
    exact Store.Assignable.mkUnion (hend.good hg₂).wellFormed hall (hagain hend.grown)
      hmem (hall m hmem) (.refl m)

/-- A string with numbers after it at place 13, a string with one number at 14, and a literal alone
at 16. -/
def tuples : List Operation :=
  [.build (.array .number), .build (.tuple [{ type := .string }, { type := 12, rest := true }]),
    .build (.tuple [{ type := .string }, { type := .number }]), .build (.literal (.string "a")),
    .build (.tuple [{ type := 15 }])]

/-- Two tuples are found to be assignable to a third one, for which types are built, and are then
united; so the union is assignable to the third one, too. -/
theorem unions_join_tuples :
    AllAccepted .typed .initial tuples ∧
    let st := afterAll .initial tuples
    let built := afterAll st [.matching 14 13 .matching, .matching 16 13 .matching]
    let union := (Store.mkUnion [14, 16]).run built
    let whole := (isAssignable union.1 13).run union.2
    st.size < built.size ∧ union.1 = 19 ∧ (∀ m ∈ [14, 16], st.Answered whole.2 m 13 true) ∧
      whole.1 = true := by
  have haccepted : AllAccepted .typed .initial tuples := allAccepted_of_builds (by decide +kernel)
  have hconcrete : ∀ t ∈ [TypeId.number, .string, 12, 13, 14, 15, 16],
      (afterAll .initial tuples).Concrete t := fun t ht =>
    Store.concrete_of_closed (reached_afterAll .initial tuples).founded _ (by decide +kernel)
      (by decide +kernel) (by decide +kernel) ht
  have hasked {st : Store} {subject pattern : TypeId} (hs : subject < st.size)
      (hp : pattern < st.size) :
      (matching subject pattern .matching).Accepted .typed st :=
        ⟨fun _ => ⟨hs, hp⟩, fun _ => trivial⟩
  have hunited {st : Store} (h : ∀ t ∈ [14, 16], t < st.size) :
      (build (.union [14, 16])).Accepted .typed st :=
    ⟨fun _ => ⟨h, fun _ h => by cases h⟩, fun _ => trivial⟩
  have hbuilt : (afterAll .initial tuples).Supplemented
      (afterAll (afterAll .initial tuples)
        [.matching 14 13 .matching, .matching 16 13 .matching]) :=
    ⟨[.matching 14 13 .matching, .matching 16 13 .matching],
      ⟨hasked (by decide +kernel) (by decide +kernel),
        hasked (by decide +kernel) (by decide +kernel),
        trivial⟩, by simp [target?], rfl⟩
  have hparts : ∀ m ∈ [14, 16], (afterAll .initial tuples).Answered
      ((isAssignable 19 13).run ((Store.mkUnion [14, 16]).run (afterAll (afterAll .initial tuples)
        [.matching 14 13 .matching, .matching 16 13 .matching])).2).2 m 13 true := by
    intro m hm
    rcases List.mem_pair.mp hm with rfl | rfl
    · refine ⟨_, .refl _, by decide +kernel, by decide +kernel,
        [.matching 16 13 .matching, .build (.union [14, 16]), .matching 19 13 .matching],
        ⟨hasked (by decide +kernel) (by decide +kernel), hunited (by decide +kernel),
          hasked (by decide +kernel) (by decide +kernel), trivial⟩,
          by simp [target?], by decide +kernel⟩
    · refine ⟨_, ⟨[.matching 14 13 .matching],
        ⟨hasked (by decide +kernel) (by decide +kernel), trivial⟩,
        by simp [target?], rfl⟩, by decide +kernel, by decide +kernel,
        [.build (.union [14, 16]), .matching 19 13 .matching],
        ⟨hunited (by decide +kernel), hasked (by decide +kernel) (by decide +kernel), trivial⟩,
        by simp [target?], by decide +kernel⟩
  refine ⟨haccepted, by decide +kernel, by decide +kernel, hparts, ?_⟩
  have htypes : ∀ m ∈ [14, 16], (afterAll .initial tuples).Concrete m ∧ m ≠ .any := fun m hm =>
    ⟨hconcrete m (by revert m; decide), by revert m; decide⟩
  exact ((unions_join haccepted htypes (hconcrete 13 (by decide)) _ hbuilt).1 _ _ (fun _ => true)
    ⟨_, .refl _, by decide +kernel, rfl, .refl _⟩ hparts).mpr fun _ _ => rfl

/-- At place 17 a type with a field of a type that is not there yet, and that matching another field
builds; at 18 the union of two objects, of which one has only the first of the fields. -/
def hastyTarget : List Operation :=
  [.build (.array .number), .build (.tuple [{ type := .string }, { type := 12, rest := true }]),
    .build (.tuple [{ type := .string }, { type := .number }]),
    .build (.object { fields := [{ name := "b", type := 14 }] }),
    .build (.object { fields := [{ name := "a", type := .never }] }),
    .build (.object { fields := [{ name := "a", type := 19, optional := true },
      { name := "b", type := 13, optional := true }] }),
    .build (.union [15, 16])]

/-- The union is found to be assignable though one of its members is not, if that one is asked for
first. -/
theorem union_outruns_member :
    (∀ op ∈ hastyTarget, op.Typed) ∧
    let st := afterAll .initial hastyTarget
    ((Store.mkUnion [15, 16]).run st).1 = 18 ∧ (∀ t ∈ [15, 16, 17], st.InferFree t ∧ st.Settled t) ∧
      (∀ t ∈ [16, 18], ((Matcher.run .matching t 17).run st).1.2.guard.overrun = false) ∧
      ((isAssignable 16 17).run st).1 = false ∧ ((isAssignable 16 17).run st).2 = st ∧
      ((isAssignable 18 17).run st).1 = true := by
  refine ⟨fun op hm => ?_,
    by decide +kernel, fun t ht => ⟨?_, ?_⟩, by decide +kernel, by decide +kernel,
    by decide +kernel, by decide +kernel⟩
  · simp only [hastyTarget, List.mem_cons, List.not_mem_nil, or_false] at hm
    rcases hm with rfl | rfl | rfl | rfl | rfl | rfl | rfl <;> trivial
  · have hscan : ∀ t ∈ [15, 16, 17], (afterAll .initial hastyTarget).containsInfer t = false := by
      decide +kernel
    exact (Store.containsInfer_eq_false (reached_afterAll .initial hastyTarget).founded).mp
      (hscan t ht)
  · exact Store.settled_of_closed [TypeId.never, .number, .string, 12, 13, 14, 15, 16, 17, 19]
      (by decide +kernel) (by decide +kernel) (by revert t; decide)

/-- An intersection is assignable to a type if one of its members is, unless the member is a union
and the type is one, too, or an intersection of which a member is one. The two may be asked for in
any order, and whatever else may be added to the store between them. -/
theorem intersections_follow {ops : List Operation} (h : AllAccepted .typed .initial ops)
    {i m t : TypeId} {ms : List TypeId} :
    let st := afterAll .initial ops
    st.form? i = some (.intersection ms) → m ∈ ms → st.Concrete i → st.Concrete t →
    (∀ ls, st.form? m ≠ some (.union ls)) ∨ ¬ st.Branching t →
    ∀ st' answer, st.Answered st' m t true → st.Answered st' i t answer → answer = true := by
  intro st hi hm hci hct hk st' answer hmember hanswer
  have hg : Discipline.Good .typed st := h.good
  have hw := hg.wellFormed
  have hcm : st.Concrete m := Store.kind_concrete.child hw hci (Store.mentions_of_form hi ▸ hm)
  have hend := hanswer.evolves hg hci hct
  have hg' := hend.good hg
  have hlater {x : TypeId} (hx : st.Concrete x) : st'.Concrete x :=
    Store.kind_concrete.later hw hend.grown hx
  rw [hanswer.iff_assignable hg hci hct]
  apply ((hmember.iff_assignable hg hcm hct).mp rfl).of_conjunct hg'.wellFormed (hg'.tidy rfl) _ hm
    (hlater hcm) (hlater hct)
  · rw [hw.form_extends hend.grown hcm.valid]
    exact hk.imp_right fun hk hb => hk (hb.earlier hw hend.grown hct.valid)
  · rw [hw.form_extends hend.grown hci.valid]
    exact hi

/-- At place 14 a type variable crossed with an object, at 15 that object or `null`; at 16 the
variable crossed with 15. -/
def crossings : List Operation :=
  [.build (.param "T"), .build (.object { fields := [{ name := "a", type := .string }] }),
    .build (.intersection [12, 13]), .build (.union [13, .null]), .build (.intersection [12, 15])]

theorem intersections_follow_crossings :
    AllAccepted .typed .initial crossings ∧
    let st := afterAll .initial crossings
    st.form? 14 = some (.intersection [12, 13]) ∧ st.Branching 15 ∧ st.Answered st 13 15 true ∧
      ((isAssignable 14 15).run st).1 = true := by
  have haccepted : AllAccepted .typed .initial crossings :=
    allAccepted_of_builds (by decide +kernel)
  have hconcrete : ∀ t ∈ [TypeId.null, .string, 12, 13, 14, 15],
      (afterAll .initial crossings).Concrete t := fun t ht =>
    Store.concrete_of_closed (reached_afterAll .initial crossings).founded _ (by decide +kernel)
      (by decide +kernel) (by decide +kernel) ht
  have hmember : (afterAll .initial crossings).Answered (afterAll .initial crossings) 13 15 true :=
    ⟨_, .refl _, by decide +kernel, by decide +kernel, .of_eq (by decide +kernel)⟩
  have hcrossing : (afterAll .initial crossings).form? 14 = some (.intersection [12, 13]) := by
    decide +kernel
  have hobject : (afterAll .initial crossings).form? 13 =
    some (.object { fields := [{ name := "a", type := .string }] }) := by decide +kernel
  refine ⟨haccepted, hcrossing, ⟨[.null, 13], .inl (by decide +kernel)⟩, hmember, ?_⟩
  exact intersections_follow haccepted hcrossing (List.mem_cons_of_mem 12 List.mem_cons_self)
    (hconcrete 14 (by decide)) (hconcrete 15 (by decide))
    (.inl fun ls hf => by cases hobject.symm.trans hf)
    _ _ hmember ⟨_, .refl _, by decide +kernel, rfl, .of_eq (by decide +kernel)⟩

/-- A member that is a union is assignable to itself, and the intersection is not. -/
theorem intersection_stops_at_union :
    AllAccepted .typed .initial crossings ∧
    let st := afterAll .initial crossings
    st.form? 16 = some (.intersection [12, 15]) ∧ st.Concrete 16 ∧
      (∀ t ∈ [15, 16], ((Matcher.run .matching t 15).run st).1.2.guard.overrun = false) ∧
      ((isAssignable 15 15).run st).1 = true ∧ ((isAssignable 16 15).run st).1 = false := by
  refine ⟨allAccepted_of_builds (by decide +kernel), by decide +kernel, ?_, by decide +kernel,
    by decide +kernel, by decide +kernel⟩
  exact Store.concrete_of_closed (reached_afterAll .initial crossings).founded
    [TypeId.null, .string, 12, 13, 15, 16] (by decide +kernel) (by decide +kernel)
    (by decide +kernel)
    (by decide)

end Operation

end TypeCalculus
