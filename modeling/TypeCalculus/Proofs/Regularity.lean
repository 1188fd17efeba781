import TypeCalculus.Proofs.Members
import TypeCalculus.Proofs.Solid

namespace TypeCalculus

def Shape.Distinct (shape : Shape) : Prop := (shape.fields.map Field.name).Nodup

instance (shape : Shape) : Decidable shape.Distinct :=
  inferInstanceAs (Decidable (shape.fields.map Field.name).Nodup)

def Wrapper.Takes (kind : Wrapper) (count : Nat) : Prop :=
  kind.minArgs ≤ count ∧ count ≤ kind.maxArgs

instance (kind : Wrapper) (count : Nat) : Decidable (kind.Takes count) :=
  inferInstanceAs (Decidable (_ ∧ _))

theorem Wrapper.takes_one (kind : Wrapper) : kind.Takes 1 := by
  cases kind <;> decide

/-- What the checked constructors ask of a form: the names of an object differ, and a wrapper takes
as many arguments as it is given. -/
def Form.Admissible : Form → Prop
  | .object shape => shape.Distinct
  | .wrapper kind args => kind.Takes args.length
  | _ => True

namespace Store

structure RegularUnion (st : Store) (ms : List TypeId) : Prop where
  ascending : ms.Pairwise (· < ·)
  several : 2 ≤ ms.length
  plain {m : TypeId} : m ∈ ms → m ≠ .any ∧ m ≠ .unknown ∧ m ≠ .never
  flat {m : TypeId} : m ∈ ms → ∀ id, st.lookup m ≠ some (.union id)
  absorbed {m : TypeId} {value : Literal} : m ∈ ms → st.lookup m = some (.literal value) →
    value.primitive ∉ ms

structure RegularIntersection (st : Store) (ms : List TypeId) : Prop where
  ascending : ms.Pairwise (· < ·)
  several : 2 ≤ ms.length
  plain {m : TypeId} : m ∈ ms → m ≠ .any ∧ m ≠ .unknown ∧ m ≠ .never
  flat {m : TypeId} : m ∈ ms → ∀ id, st.lookup m ≠ some (.intersection id)
  classes {m n p q : TypeId} : m ∈ ms → n ∈ ms → st.primitive? m = some p →
    st.primitive? n = some q → p = q
  literals {m n : TypeId} : m ∈ ms → n ∈ ms → st.isLiteral m = true → st.isLiteral n = true → m = n
  objects {m n p : TypeId} : m ∈ ms → n ∈ ms → st.primitive? m = some p →
    st.isObjectLike n = true → st.isReserved n = true

def Regular (st : Store) : Form → Prop
  | .union ms => st.RegularUnion ms
  | .intersection ms => st.RegularIntersection ms
  | .object shape => shape.Distinct
  | .constructor signature => signature.receiver = none
  | .wrapper kind args => kind.Takes args.length
  | _ => True

/-- A regular form passes the checks of the constructors. -/
theorem Regular.admissible {st : Store} {f : Form} (h : st.Regular f) : f.Admissible := by
  cases f <;> first | exact h | trivial

/-- Unions and intersections are normalised, wrappers have as many arguments as they take,
constructors no receiver and objects no name twice. -/
structure Tidy (st : Store) : Prop where
  container {t : TypeId} {node : Node} : st.isReserved t = true → st.lookup t = some node →
    node.isContainer = true
  regular {t : TypeId} {f : Form} : st.form? t = some f → st.Regular f
  shapes {shape : Shape} : shape ∈ st.shapes.items → shape.Distinct

/-- Tidy stores are well formed. -/
theorem Tidy.wellFormed {st : Store} (ht : st.Tidy) (ha : st.Anchored) : st.WellFormed where
  founded := ha.founded
  indexed := ha.indexed
  sound t := by
    refine ⟨ha.placed, ha.inside, ha.below, ht.container, fun {ms} hf => ?_⟩
    have hr : st.RegularUnion ms := ht.regular hf
    refine ⟨hr.several, fun m hm ls hls => ?_⟩
    obtain ⟨node, hn, he⟩ := lookup_of_form hls
    cases node <;> simp only [form, reduceCtorEq] at he
    exact hr.flat hm _ hn
  conditional := ha.conditional

section Grows

variable {st st' : Store} (h : st.Grows st') {t : TypeId} (ht : t < st.size)

include h ht

/-- A type only ever becomes a container. -/
theorem Grows.lookup_cases : st'.lookup t = st.lookup t ∨
    st.lookup t = none ∧ st.isReserved t = true ∧
      ∃ body, st'.lookup t = some body ∧ body.isContainer = true := by
  have hc : st.cells[t]? = some st.cells[t] := List.getElem?_eq_getElem ht
  rcases h.cell hc with hc' | ⟨he, body, hc', hk⟩
  · left
    rw [Store.lookup, Store.lookup, hc, hc']
  · right
    rw [he] at hc
    refine ⟨?_, ?_, body, ?_, hk⟩
    · simp [Store.lookup, hc, Cell.node?]
    · simp [Store.isReserved, hc]
    · simp [Store.lookup, hc', Cell.node?]

theorem Grows.lookup_plain {node : Node} (hk : node.isContainer = false)
    (hn : st'.lookup t = some node) : st.lookup t = some node := by
  rcases h.lookup_cases ht with he | ⟨_, _, body, hb, hc⟩
  · rw [← he, hn]
  · cases hb.symm.trans hn
    rw [hk] at hc
    cases hc

theorem Grows.isLiteral : st'.isLiteral t = st.isLiteral t := by
  unfold Store.isLiteral
  rcases h.lookup_cases ht with he | ⟨he, _, body, hb, hk⟩
  · rw [he]
  · rw [he, hb]
    cases body <;> first | rfl | cases hk

theorem Grows.primitive? : st'.primitive? t = st.primitive? t := by
  unfold Store.primitive?
  rcases h.lookup_cases ht with he | ⟨he, _, body, hb, hk⟩
  · rw [he]
  · rw [he, hb]
    cases body <;> first | rfl | cases hk

/-- What becomes an object type is a placeholder. -/
theorem Grows.isObjectLike (ho : st'.isObjectLike t = true) :
    st.isObjectLike t = true ∨ st'.isReserved t = true := by
  rcases h.lookup_cases ht with he | ⟨_, hr, _⟩
  · left
    rw [Store.isObjectLike, ← he]
    exact ho
  · right
    exact h.widens.reserved hr

end Grows

section Kept

variable {st st' : Store} (h : st.Grows st') {ms : List TypeId} (hms : ∀ m ∈ ms, m < st.size)

include h hms

/-- A union stays in normal form, as members only ever change from empty placeholders to
containers. -/
theorem RegularUnion.grows (hr : st.RegularUnion ms) : st'.RegularUnion ms where
  ascending := hr.ascending
  several := hr.several
  plain := hr.plain
  flat {m} hm id hl := hr.flat hm id (h.lookup_plain (hms m hm) rfl hl)
  absorbed {m _} hm hl := hr.absorbed hm (h.lookup_plain (hms m hm) rfl hl)

theorem RegularIntersection.grows (hr : st.RegularIntersection ms) :
    st'.RegularIntersection ms where
  ascending := hr.ascending
  several := hr.several
  plain := hr.plain
  flat {m} hm id hl := hr.flat hm id (h.lookup_plain (hms m hm) rfl hl)
  classes {m n p q} hm hn hp hq := by
    rw [h.primitive? (hms m hm)] at hp
    rw [h.primitive? (hms n hn)] at hq
    exact hr.classes hm hn hp hq
  literals {m n} hm hn hl hl' := by
    rw [h.isLiteral (hms m hm)] at hl
    rw [h.isLiteral (hms n hn)] at hl'
    exact hr.literals hm hn hl hl'
  objects {m n p} hm hn hp ho := by
    rw [h.primitive? (hms m hm)] at hp
    rcases h.isObjectLike (hms n hn) ho with ho | hres
    · exact h.widens.reserved (hr.objects hm hn hp ho)
    · exact hres

omit hms in
theorem Regular.grows {f : Form} (hf : ∀ c ∈ f.mentions, c < st.size) (hr : st.Regular f) :
    st'.Regular f := by
  cases f with
  | union ms => exact RegularUnion.grows h hf hr
  | intersection ms => exact RegularIntersection.grows h hf hr
  | _ => exact hr

end Kept

section Unions

variable {st : Store} {types : List TypeId}

theorem pairwise_kept : (st.kept types).Pairwise (· < ·) := by
  have hflat : (st.flat types).Pairwise (· < ·) := pairwise_ascending _
  exact (hflat.filter _).filter _

theorem unionPlan_old {t : TypeId} (h : st.unionPlan types = .inl t) :
    t.isIntrinsic = true ∨ t ∈ st.kept types := by
  unfold unionPlan at h
  split at h
  · cases h
    exact .inl rfl
  · split at h
    · cases h
      exact .inl rfl
    · split at h
      · cases h
        exact .inl rfl
      · rename_i hk
        cases h
        exact .inr (by simp [hk])
      · cases h

/-- What a union keeps of its members is in normal form. -/
theorem regular_kept (ht : st.Tidy) (hp : st.unionPlan types = .inr (st.kept types)) :
    st.RegularUnion (st.kept types) := by
  have hany : TypeId.any ∉ st.flat types := by
    intro h
    simp [unionPlan, h] at hp
  have hunknown : TypeId.unknown ∉ st.flat types := by
    intro h
    simp [unionPlan, h, hany] at hp
  have hsub {m : TypeId} (hm : m ∈ st.kept types) : m ∈ st.flat types ∧ m ≠ .never := by
    simp only [kept, absorbLiterals, List.mem_filter] at hm
    exact ⟨hm.1.1, by simpa using hm.1.2⟩
  constructor
  · exact pairwise_kept
  · exact (unionPlan_inr hp).2
  · intro m hm
    obtain ⟨hflat, hnever⟩ := hsub hm
    exact ⟨fun he => hany (he ▸ hflat), fun he => hunknown (he ▸ hflat), hnever⟩
  · intro m hm id hl
    obtain ⟨t, _, hmt⟩ := (st.mem_flat types).mp (hsub hm).1
    unfold unionMembers at hmt
    split at hmt
    · simp at hmt
    · split at hmt
      · rename_i ids hn
        have hr : st.RegularUnion (st.list ids) := ht.regular (form_of_lookup hn)
        exact hr.flat hmt id hl
      · rename_i hn
        obtain rfl := List.mem_singleton.mp hmt
        exact hn id hl
  · intro m value hm hl hprim
    have habsorbed := (List.mem_filter.mp hm).2
    simp only [hl, decide_eq_true_eq] at habsorbed
    exact habsorbed (List.mem_filter.mp hprim).1

end Unions

section Intersections

variable (st : Store) (types : List TypeId)

def crossed : List TypeId :=
  (ascending (types.flatMap st.intersectionMembers)).filter (· ≠ .unknown)

def intersectionPlan : TypeId ⊕ List TypeId :=
  if TypeId.never ∈ ascending (types.flatMap st.intersectionMembers) then .inl .never
  else if TypeId.any ∈ ascending (types.flatMap st.intersectionMembers) then .inl .any
  else match st.crossed types with
    | [] => .inl .unknown
    | [only] => .inl only
    | members => if st.isDisjoint members then .inl .never else .inr members

theorem run_mkIntersection : (mkIntersection types).run st = match st.intersectionPlan types with
    | .inl t => (t, st)
    | .inr members => (internList members >>= fun id => intern (.intersection id)).run st := by
  have hrun : mkIntersection types st =
      (if TypeId.never ∈ ascending (types.flatMap st.intersectionMembers) then pure .never
      else if TypeId.any ∈ ascending (types.flatMap st.intersectionMembers) then pure .any
      else match st.crossed types with
        | [] => pure .unknown
        | [only] => pure only
        | members => if st.isDisjoint members then pure .never
          else internList members >>= fun id => intern (.intersection id) : StoreM TypeId) st := rfl
  unfold StateT.run intersectionPlan
  rw [hrun]
  split
  · rfl
  · split
    · rfl
    · rcases st.crossed types with _ | ⟨only, _ | ⟨other, rest⟩⟩
      · rfl
      · rfl
      · dsimp only
        split <;> rfl

variable {st types}

theorem mem_crossed {m : TypeId} (h : m ∈ st.crossed types) :
    m ∈ ascending (types.flatMap st.intersectionMembers) ∧ m ≠ .unknown := by
  simpa [crossed] using h

theorem intersectionPlan_inl {t : TypeId} (h : st.intersectionPlan types = .inl t) :
    t.isIntrinsic = true ∨ t ∈ st.crossed types := by
  unfold intersectionPlan at h
  split at h
  · cases h
    exact .inl rfl
  · split at h
    · cases h
      exact .inl rfl
    · split at h
      · cases h
        exact .inl rfl
      · rename_i hc
        cases h
        exact .inr (by simp [hc])
      · split at h
        · cases h
          exact .inl rfl
        · cases h

theorem intersectionPlan_inr {ms : List TypeId} (h : st.intersectionPlan types = .inr ms) :
    TypeId.never ∉ ascending (types.flatMap st.intersectionMembers) ∧
      TypeId.any ∉ ascending (types.flatMap st.intersectionMembers) ∧ ms = st.crossed types ∧
        2 ≤ ms.length ∧ st.isDisjoint ms = false := by
  unfold intersectionPlan at h
  split at h
  · cases h
  · rename_i hnever
    split at h
    · cases h
    · rename_i hany
      rcases hc : st.crossed types with _ | ⟨only, _ | ⟨other, rest⟩⟩ <;> rw [hc] at h <;>
        dsimp only at h
      · cases h
      · cases h
      · split at h
        · cases h
        · rename_i hd
          cases h
          exact ⟨hnever, hany, rfl, by simp, by simpa using hd⟩

/-- Members that some value may lie in. -/
theorem regular_crossed (ht : st.Tidy) {ms : List TypeId}
    (hp : st.intersectionPlan types = .inr ms) :
    st.RegularIntersection ms := by
  obtain ⟨hnever, hany, rfl, hlen, hd⟩ := intersectionPlan_inr hp
  have hasc : (st.crossed types).Pairwise (· < ·) := (pairwise_ascending _).filter _
  simp only [isDisjoint, Bool.or_eq_false_iff, decide_eq_false_iff_not, Nat.not_lt] at hd
  obtain ⟨⟨hone, hclass⟩, hobject⟩ := hd
  have hprim {m p : TypeId} (hm : m ∈ st.crossed types) (h : st.primitive? m = some p) :
      p ∈ (st.crossed types).filterMap st.primitive? :=
    List.mem_filterMap.mpr ⟨m, hm, h⟩
  constructor
  · exact hasc
  · exact hlen
  · intro m hm
    obtain ⟨hflat, hunknown⟩ := mem_crossed hm
    exact ⟨fun he => hany (he ▸ hflat), hunknown, fun he => hnever (he ▸ hflat)⟩
  · intro m hm id hl
    have hmt := (mem_crossed hm).1
    rw [mem_ascending, List.mem_flatMap] at hmt
    obtain ⟨t, _, hmt⟩ := hmt
    unfold intersectionMembers at hmt
    split at hmt
    · rename_i ids hn
      have hr : st.RegularIntersection (st.list ids) := ht.regular (form_of_lookup hn)
      exact hr.flat hmt id hl
    · rename_i hn
      obtain rfl := List.mem_singleton.mp hmt
      exact hn id hl
  · intro m n p q hm hn hp hq
    have hp := List.any_eq_false.mp hclass p (hprim hm hp)
    have hq := List.any_eq_false.mp (Bool.not_eq_true _ ▸ hp) q (hprim hn hq)
    simpa using (by simpa using hq : q = p).symm
  · intro m n hm hn hl hl'
    have hlit {x : TypeId} (hx : x ∈ st.crossed types) (h : st.isLiteral x = true) :
        x ∈ (st.crossed types).filter st.isLiteral := List.mem_filter.mpr ⟨hx, h⟩
    have hm := hlit hm hl
    have hn := hlit hn hl'
    rcases hf : (st.crossed types).filter st.isLiteral with _ | ⟨x, _ | ⟨y, rest⟩⟩
    · simp [hf] at hm
    · rw [hf] at hm hn
      exact (List.mem_singleton.mp hm).trans (List.mem_singleton.mp hn).symm
    · simp [hf] at hone
  · intro m n p hm hn hp ho
    have hne : (List.filterMap st.primitive? (st.crossed types)).isEmpty = false := by
      cases he : List.filterMap st.primitive? (st.crossed types) with
      | nil => simpa [he] using hprim hm hp
      | cons => rfl
    simp only [hne, Bool.not_false, Bool.true_and] at hobject
    have := List.any_eq_false.mp hobject n hn
    exact absurd ho this

end Intersections

theorem Solid.members {st : Store} {t m : TypeId} (h : st.Solid t) (hm : m ∈ st.unionMembers t) :
    st.Solid m := by
  unfold unionMembers at hm
  split at hm
  · simp at hm
  · split at hm
    · rename_i hl
      exact h.child (mentions_of_form (form_of_lookup hl) ▸ hm)
    · exact List.mem_singleton.mp hm ▸ h

section Steady

variable {st st' : Store}

namespace Steady

variable {t : TypeId} (h : st.Steady st' t)

include h

theorem unionMember {m : TypeId} (hm : m ∈ st.unionMembers t) : st.Steady st' m := by
  unfold Store.unionMembers at hm
  split at hm
  · simp at hm
  · split at hm
    · rename_i hl
      exact h.child (mentions_of_form (form_of_lookup hl) ▸ hm)
    · exact List.mem_singleton.mp hm ▸ h

theorem intersectionMember {m : TypeId} (hm : m ∈ st.intersectionMembers t) : st.Steady st' m := by
  rcases mem_intersectionMembers hm with rfl | hm
  · exact h
  · exact h.child hm

theorem unionMembers : st'.unionMembers t = st.unionMembers t := by
  unfold Store.unionMembers
  rw [h.lookup]
  split
  · rfl
  · split
    · rename_i hl
      exact Form.union.inj (h.form_node hl)
    · rfl

theorem intersectionMembers : st'.intersectionMembers t = st.intersectionMembers t := by
  unfold Store.intersectionMembers
  rw [h.lookup]
  split
  · rename_i hl
    exact Form.intersection.inj (h.form_node hl)
  · rfl

end Steady

theorem Solid.unionMembers_widens {t : TypeId} (ha : st.Anchored) (hs : st.Widens st')
    (h : st.Solid t) : st'.unionMembers t = st.unionMembers t :=
  (h.steady ha hs).unionMembers

variable {types : List TypeId} (h : ∀ t ∈ types, st.Steady st' t)

include h

/-- Types that read the same in another store are united in the same way there. -/
theorem unionPlan_steady : st'.unionPlan types = st.unionPlan types := by
  have hflat : st'.flat types = st.flat types := by
    unfold flat
    rw [List.flatMap_congr fun t hm => (h t hm).unionMembers]
  have hkept : st'.kept types = st.kept types := by
    unfold kept absorbLiterals
    rw [hflat]
    apply List.filter_congr
    intro m hm
    obtain ⟨t, ht, hmt⟩ := (st.mem_flat types).mp (List.mem_filter.mp hm).1
    rw [((h t ht).unionMember hmt).lookup]
  unfold unionPlan
  rw [hflat, hkept]

/-- So they are intersected. -/
theorem intersectionPlan_steady : st'.intersectionPlan types = st.intersectionPlan types := by
  have hflat : types.flatMap st'.intersectionMembers = types.flatMap st.intersectionMembers :=
    List.flatMap_congr fun t hm => (h t hm).intersectionMembers
  have hcrossed : st'.crossed types = st.crossed types := by
    unfold crossed
    rw [hflat]
  have hlookup {m : TypeId} (hm : m ∈ st.crossed types) : st'.lookup m = st.lookup m := by
    have hmt := (mem_crossed hm).1
    rw [mem_ascending, List.mem_flatMap] at hmt
    obtain ⟨t, ht, hmt⟩ := hmt
    exact ((h t ht).intersectionMember hmt).lookup
  have hdisjoint : st'.isDisjoint (st.crossed types) = st.isDisjoint (st.crossed types) := by
    have hprim : (st.crossed types).filterMap st'.primitive? =
        (st.crossed types).filterMap st.primitive? := by
      apply List.filterMap_congr
      intro m hm
      rw [primitive?, hlookup hm]
      rfl
    have hlit : (st.crossed types).filter st'.isLiteral =
        (st.crossed types).filter st.isLiteral := by
      apply List.filter_congr
      intro m hm
      rw [isLiteral, hlookup hm]
      rfl
    have hobj : (st.crossed types).any st'.isObjectLike =
        (st.crossed types).any st.isObjectLike := by
      rw [Bool.eq_iff_iff, List.any_eq_true, List.any_eq_true]
      apply exists_congr
      intro m
      apply and_congr_right
      intro hm
      rw [isObjectLike, hlookup hm]
      rfl
    unfold isDisjoint
    rw [hprim, hlit, hobj]
  unfold intersectionPlan
  rw [hflat, hcrossed]
  split
  · rfl
  · split
    · rfl
    · split
      · rfl
      · rfl
      · rename_i ms _ _
        rw [hdisjoint]

end Steady

end Store

end TypeCalculus
