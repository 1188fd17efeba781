import TypeCalculus.Proofs.Kinds

namespace TypeCalculus.Store

section Growing

variable {st st' : Store} (hw : st.WellFormed)

include hw

theorem Asked.kinds {P Q : Store → TypeId → Prop} (hP : Kind P) (hQ : Inherited Q)
    {s p a b : TypeId} (hs : P st s) (hp : Q st p) (h : st.Asked s p a b) : P st a ∧ Q st b := by
  rcases h with ⟨rfl | ha, hb⟩ | ⟨ha, rfl⟩
  · exact ⟨hs, hQ.child hw hp hb⟩
  · exact ⟨hP.subjectPart hw hs ha, hQ.child hw hp hb⟩
  · exact ⟨hP.child hw hs ha.mentioned, hp⟩

/-- Assignability lasts while the store grows. -/
theorem Assignable.later (he : st.Extends st') {s p : TypeId} (hs : s < st.size) (hp : p < st.size)
    (h : st.Assignable s p) : st'.Assignable s p := by
  refine ⟨fun a b => (a < st.size ∧ b < st.size) ∧ st.Assignable a b, fun a b hab => ?_,
    ⟨hs, hp⟩, h⟩
  obtain ⟨⟨ha, hb⟩, hab⟩ := hab
  have hform := hw.form_extends he hb
  rcases hab.unfold with h | ⟨hd, h⟩
  · exact .inl h
  · refine .inr ⟨hform ▸ hd, h.imp_right fun h => h.imp_right fun h => h.imp_right fun h => ?_⟩
    have hvalid {x y : TypeId} (h : st.Asked a b x y) : x < st.size ∧ y < st.size :=
      h.kinds hw kind_valid kind_valid.toInherited ha hb
    exact h.transfer (hw.sameParts he ha) (fun x y hxy hr => ⟨hvalid hxy, hr⟩)
      (fun x y hxy hr => ⟨(hvalid hxy).symm, hr⟩) hform

end Growing

theorem Founded.form_top {st : Store} (founded : st.Founded) {t : TypeId} (h : t.isTop = true) :
    ∃ kind, st.form? t = some (.intrinsic kind) := by
  have h : t = .any ∨ t = .unknown := by simpa [TypeId.isTop] using h
  rcases h with rfl | rfl
  · exact ⟨.any, founded.form .any⟩
  · exact ⟨.unknown, founded.form .unknown⟩

section Extremes

variable {st : Store} (hw : st.WellFormed) {a b : TypeId}

theorem assignable_top (hd : (st.form? b).isSome) (h : b.isTop = true) : st.Assignable a b :=
  Unfolds.fold (.inr ⟨hd, .inl h⟩)

theorem assignable_never (hd : (st.form? b).isSome) : st.Assignable .never b :=
  Unfolds.fold (.inr ⟨hd, .inr (.inl rfl)⟩)

theorem assignable_any (hd : (st.form? b).isSome) : st.Assignable .any b :=
  Unfolds.fold (.inr ⟨hd, .inr (.inr (.inl rfl))⟩)

include hw

/-- Whatever is assignable to `never` is assignable to every type, since only unions and
intersections of such types are. -/
theorem Assignable.of_never (h : st.Assignable a .never) (hb : st.Concrete b) :
    st.Assignable a b := by
  have hnever : st.form? .never = some (.intrinsic .never) := hw.founded.form .never
  refine ⟨fun a b => st.Assignable a b ∨ st.Assignable a .never ∧ st.Concrete b, fun a b hab => ?_,
    .inr ⟨h, hb⟩⟩
  rcases hab with hab | ⟨h, hb⟩
  · exact hab.unfold.mono fun _ _ => .inl
  obtain ⟨f, hf⟩ := hb.defined
  have hd : (st.form? b).isSome := by simp [hf]
  rcases h.unfold with rfl | ⟨_, htop | rfl | rfl | hc⟩
  · exact .inr ⟨hd, .inr (.inl rfl)⟩
  · cases htop
  · exact .inr ⟨hd, .inr (.inl rfl)⟩
  · exact .inr ⟨hd, .inr (.inr (.inl rfl))⟩
  · refine .inr ⟨hd, .inr (.inr (.inr ?_))⟩
    have hmember {ms : List TypeId} (hf : st.form? b = some f) (he : f.mentions = ms) {m : TypeId}
        (hm : m ∈ ms) : st.Concrete m :=
      kind_concrete.child hw hb (mentions_of_form hf ▸ he ▸ hm)
    cases hc with
    | unionSubject hs _ h => exact .unionSubject hs hf fun m hm => .inr ⟨h m hm, hb⟩
    | unionPattern _ _ hp => cases hnever.symm.trans hp
    | intersectionPattern _ _ hp => cases hnever.symm.trans hp
    | @intersectionSubject _ _ m hs _ _ _ hm hr =>
      cases f with
      | union bs =>
        obtain ⟨hlen, _⟩ := (hw.sound b).union hf
        obtain ⟨y, hy⟩ := List.exists_mem_of_length_pos (Nat.lt_of_lt_of_le Nat.zero_lt_two hlen)
        exact .unionPattern hs rfl hf hy (.inr ⟨h, hmember hf rfl hy⟩)
      | intersection bs =>
        exact .intersectionPattern hs rfl hf fun y hy => .inr ⟨h, hmember hf rfl hy⟩
      | _ => exact .intersectionSubject hs hf rfl rfl hm (.inr ⟨hr, hb⟩)
    | parts _ hp _ _ _ _ h =>
      cases hnever.symm.trans hp
      obtain ⟨value, _, hv⟩ := partsClause_intrinsic.mp h
      cases value <;> cases hv

/-- A literal lies in its primitive, and so does whatever is assignable to it. -/
theorem Assignable.of_literal {x : TypeId} {value : Literal}
    (hx : st.form? x = some (.literal value)) (h : st.Assignable a x) :
    st.Assignable a value.primitive := by
  obtain ⟨kind, hk, hclause⟩ : ∃ kind : Intrinsic, kind.id = value.primitive ∧
      IntrinsicClause x (.literal value) kind := by
    cases value
    · exact ⟨.string, rfl, _, rfl, rfl⟩
    · exact ⟨.number, rfl, _, rfl, rfl⟩
    · exact ⟨.boolean, rfl, _, rfl, rfl⟩
    · exact ⟨.bigint, rfl, _, rfl, rfl⟩
  have hform : st.form? value.primitive = some (.intrinsic kind) := hk ▸ hw.founded.form kind
  have hd : (st.form? value.primitive).isSome := by simp [hform]
  refine ⟨fun a b => st.Assignable a b ∨ b = value.primitive ∧ st.Assignable a x, fun a b hab => ?_,
    .inr ⟨rfl, h⟩⟩
  rcases hab with hab | ⟨rfl, h⟩
  · exact hab.unfold.mono fun _ _ => .inl
  rcases h.unfold with rfl | ⟨_, htop | rfl | rfl | hc⟩
  · exact .inr ⟨hd, .inr (.inr (.inr (.parts hx hform rfl rfl rfl rfl (.intrinsic hclause))))⟩
  · obtain ⟨k, hk⟩ := hw.founded.form_top htop
    cases hx.symm.trans hk
  · exact .inr ⟨hd, .inr (.inl rfl)⟩
  · exact .inr ⟨hd, .inr (.inr (.inl rfl))⟩
  · refine .inr ⟨hd, .inr (.inr (.inr ?_))⟩
    cases hc with
    | unionSubject hs _ h => exact .unionSubject hs hform fun m hm => .inr ⟨rfl, h m hm⟩
    | unionPattern _ _ hp => cases hx.symm.trans hp
    | intersectionPattern _ _ hp => cases hx.symm.trans hp
    | intersectionSubject hs _ _ _ hm h =>
      exact .intersectionSubject hs hform rfl rfl hm (.inr ⟨rfl, h⟩)
    | parts _ hp _ _ _ _ h =>
      cases hx.symm.trans hp
      cases h

end Extremes

section Unions

variable {st : Store} (hw : st.WellFormed)

include hw

theorem WellFormed.isUnion_member {t m : TypeId} {ms : List TypeId} {f : Form}
    (ht : st.form? t = some (.union ms)) (hm : m ∈ ms) (hf : st.form? m = some f) :
    f.isUnion = false := by
  cases f with
  | union ls => exact absurd hf (((hw.sound t).union ht).2 m hm ls)
  | _ => rfl

/-- The members of a union go wherever the union goes. -/
theorem Assignable.member {a m t : TypeId} {ms : List TypeId} (h : st.Assignable a t)
    (ha : st.form? a = some (.union ms)) (hm : m ∈ ms) (hc : st.Concrete m) :
    st.Assignable m t := by
  obtain ⟨f, hf⟩ := hc.defined
  have hne (kind : Intrinsic) : a ≠ kind.id := by
    rintro rfl
    cases ha.symm.trans (hw.founded.form kind)
  rcases h.unfold with rfl | ⟨hd, htop | he | he | h⟩
  · exact Clause.assignable (.unionPattern hf (hw.isUnion_member ha hm hf) ha hm (.refl m))
  · exact assignable_top hd htop
  · exact absurd he (hne .never)
  · exact absurd he (hne .any)
  · obtain ⟨b, hb⟩ := Option.isSome_iff_exists.mp hd
    exact (clause_unionSubject ha hb).mp h m hm

/-- It is enough to look at subjects that are no unions. -/
theorem Assignable.of_single {a t u : TypeId} (h : st.Assignable a t) (ha : st.Concrete a)
    (hu : (st.form? u).isSome)
    (single : ∀ b f, st.Concrete b → st.form? b = some f → f.isUnion = false → st.Assignable b t →
      st.Assignable b u) : st.Assignable a u := by
  obtain ⟨f, hf⟩ := ha.defined
  obtain ⟨g, hg⟩ := Option.isSome_iff_exists.mp hu
  cases hk : f.isUnion with
  | false => exact single a f ha hf hk h
  | true =>
    cases f with
    | union ms =>
      refine Clause.assignable (.unionSubject hf hg fun m hm => ?_)
      have hc : st.Concrete m := kind_concrete.child hw ha (mentions_of_form hf ▸ hm)
      obtain ⟨f, hfm⟩ := hc.defined
      exact single m f hc hfm (hw.isUnion_member hf hm hfm) (h.member hw hf hm hc)
    | _ => cases hk

/-- A union loses no member but `never`, and a literal only to its primitive. -/
theorem WellFormed.mem_kept {types : List TypeId} {x : TypeId} (hx : x ∈ st.flat types) :
    x = .never ∨ x ∈ st.kept types ∨
      ∃ value, st.form? x = some (.literal value) ∧ value.primitive ∈ st.kept types := by
  by_cases hn : x = .never
  · exact .inl hn
  have hmem : x ∈ (st.flat types).filter (· ≠ .never) := by simp [hx, hn]
  refine .inr ?_
  have hkeeps {y : TypeId} (hy : y ∈ (st.flat types).filter (· ≠ .never))
      (hl : ∀ value, st.lookup y = some (.literal value) →
        value.primitive ∉ (st.flat types).filter (· ≠ .never)) : y ∈ st.kept types := by
    refine List.mem_filter.mpr ⟨hy, ?_⟩
    split
    · rename_i value hlookup
      exact decide_eq_true (hl value hlookup)
    · rfl
  by_cases hl : ∃ value, st.lookup x = some (.literal value) ∧
      value.primitive ∈ (st.flat types).filter (· ≠ .never)
  · obtain ⟨value, hlookup, hprim⟩ := hl
    refine .inr ⟨value, form_of_lookup hlookup, hkeeps hprim fun other ho => ?_⟩
    obtain ⟨kind, hk⟩ : ∃ kind : Intrinsic, kind.id = value.primitive :=
      TypeId.isIntrinsic_iff.mp (by cases value <;> rfl)
    rw [← hk, hw.founded.lookup kind] at ho
    cases ho
  · exact .inl (hkeeps hmem fun value hlookup hprim => hl ⟨value, hlookup, hprim⟩)

/-- Whatever is assignable to one of the types of a union is assignable to the union. -/
theorem Assignable.mkUnion {types : List TypeId} (ht : ∀ t ∈ types, st.Concrete t) {a t u : TypeId}
    (hrun : (mkUnion types).run st = (u, st)) (hm : t ∈ types) (ha : st.Concrete a)
    (h : st.Assignable a t) : st.Assignable a u := by
  have hrun : Action.run (Store.mkUnion types) st = (u, st) := hrun
  obtain ⟨_, hu⟩ := kind_concrete.leads_mkUnion hw ht
  obtain ⟨_, hanswer⟩ := leads_mkUnion hw fun t hm => (ht t hm).valid
  rw [hrun] at hu hanswer
  dsimp only at hu hanswer
  have hd : (st.form? u).isSome := by
    obtain ⟨f, hf⟩ := hu.defined
    simp [hf]
  refine h.of_single hw ha hd fun b f hb hf hk h => ?_
  -- A member that the union keeps is the whole of it or one of its members.
  have hkept {y : TypeId} (hy : y ∈ st.kept types) (h : st.Assignable b y) : st.Assignable b u := by
    cases hanswer with
    | any _ => exact assignable_top hd rfl
    | unknown _ => exact assignable_top hd rfl
    | never he => simp [he] at hy
    | only he =>
      rw [he, List.mem_singleton] at hy
      exact hy ▸ h
    | members _ hm => exact Clause.assignable (.unionPattern hf hk hm.form hy h)
  have hflat {x : TypeId} (hx : x ∈ st.flat types) (h : st.Assignable b x) : st.Assignable b u := by
    rcases hw.mem_kept hx with rfl | hy | ⟨value, hv, hy⟩
    · exact h.of_never hw hu
    · exact hkept hy h
    · exact hkept hy (h.of_literal hw hv)
  by_cases hn : t = .never
  · exact (hn ▸ h).of_never hw hu
  · have hmembers (m : TypeId) (hmem : m ∈ st.unionMembers t) : m ∈ st.flat types :=
      (st.mem_flat types).mpr ⟨t, hm, hmem⟩
    unfold unionMembers at hmembers
    rw [if_neg hn] at hmembers
    split at hmembers
    · rename_i ms hl
      have hunion : st.form? t = some (.union (st.list ms)) := form_of_lookup hl
      rcases h.unfold with rfl | ⟨_, htop | rfl | rfl | hc⟩
      · cases hunion.symm.trans hf
        cases hk
      · obtain ⟨kind, hkind⟩ := hw.founded.form_top htop
        cases hunion.symm.trans hkind
      · exact assignable_never hd
      · exact assignable_any hd
      · obtain ⟨x, hx, hr⟩ := (clause_unionPattern hf hk hunion).mp hc
        exact hflat (hmembers x hx) hr
    · exact hflat (hmembers t (List.mem_singleton.mpr rfl)) h

end Unions

end TypeCalculus.Store
