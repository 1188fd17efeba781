import TypeCalculus.Proofs.Assignability
import TypeCalculus.Proofs.WellFormed

namespace TypeCalculus.Store

section Plan

variable (st : Store) (types : List TypeId)

def flat : List TypeId := ascending (types.flatMap st.unionMembers)

theorem mem_flat {m : TypeId} : m ∈ st.flat types ↔ ∃ t ∈ types, m ∈ st.unionMembers t := by
  simp [flat, mem_ascending]

def kept : List TypeId := st.absorbLiterals ((st.flat types).filter (· ≠ .never))

def unionPlan : TypeId ⊕ List TypeId :=
  if TypeId.any ∈ st.flat types then .inl .any
  else if TypeId.unknown ∈ st.flat types then .inl .unknown
  else match st.kept types with
    | [] => .inl .never
    | [only] => .inl only
    | members => .inr members

theorem run_mkUnion : (mkUnion types).run st = match st.unionPlan types with
    | .inl t => (t, st)
    | .inr members => (internList members >>= fun id => intern (.union id)).run st := by
  have hrun : mkUnion types st = (if TypeId.any ∈ st.flat types then pure .any
      else if TypeId.unknown ∈ st.flat types then pure .unknown
      else match st.kept types with
        | [] => pure .never
        | [only] => pure only
        | members => internList members >>= fun id => intern (.union id) : StoreM TypeId) st := rfl
  unfold StateT.run unionPlan
  rw [hrun]
  split
  · rfl
  · split
    · rfl
    · rcases st.kept types with _ | ⟨only, _ | ⟨other, rest⟩⟩ <;> rfl

theorem mem_kept_flat {m : TypeId} (h : m ∈ st.kept types) : m ∈ st.flat types := by
  simp only [kept, absorbLiterals, List.mem_filter] at h
  exact h.1.1

end Plan

/-- The union of types, as it stands in a store. -/
inductive UnionAnswer (st : Store) (types : List TypeId) : TypeId → Store → Prop
  | any {st' : Store} (h : TypeId.any ∈ st.flat types) : UnionAnswer st types .any st'
  | unknown {st' : Store} (h : TypeId.unknown ∈ st.flat types) : UnionAnswer st types .unknown st'
  | never {st' : Store} (h : st.kept types = []) : UnionAnswer st types .never st'
  | only {t : TypeId} {st' : Store} (h : st.kept types = [t]) : UnionAnswer st types t st'
  | members {t : TypeId} {st' : Store} (h : 2 ≤ (st.kept types).length)
    (hm : Made (.union (st.kept types)) t st') : UnionAnswer st types t st'

inductive IntersectionAnswer (st : Store) (types : List TypeId) (t : TypeId) : Prop
  | intrinsic (h : t.isIntrinsic = true)
  | member {u : TypeId} (hu : u ∈ types) (h : t = u ∨ t ∈ st.mentions u)
  | members {ms : List TypeId} (hm : Made (.intersection ms) t st)
    (h : ∀ m ∈ ms, ∃ u ∈ types, m = u ∨ m ∈ st.mentions u)

theorem unionPlan_inl {st st' : Store} {types : List TypeId} {t : TypeId}
    (h : st.unionPlan types = .inl t) : UnionAnswer st types t st' := by
  unfold unionPlan at h
  split at h
  · cases h
    exact .any ‹_›
  · split at h
    · cases h
      exact .unknown ‹_›
    · split at h
      · cases h
        exact .never ‹_›
      · cases h
        exact .only ‹_›
      · cases h

theorem unionPlan_inr {st : Store} {types members : List TypeId}
    (h : st.unionPlan types = .inr members) : st.kept types = members ∧ 2 ≤ members.length := by
  unfold unionPlan at h
  split at h
  · cases h
  · split at h
    · cases h
    · rcases hk : st.kept types with _ | ⟨only, _ | ⟨other, rest⟩⟩ <;>
        simp only [hk] at h <;> cases h
      exact ⟨rfl, by simp⟩

theorem mem_unionMembers {st : Store} {t m : TypeId} (h : m ∈ st.unionMembers t) :
    m = t ∨ m ∈ st.mentions t := by
  unfold unionMembers at h
  split at h
  · simp at h
  · split at h
    · rename_i ms hl
      exact .inr (mentions_of_form (form_of_lookup hl) ▸ h)
    · exact .inl (List.mem_singleton.mp h)

section WellFormed

variable {st : Store} (hw : st.WellFormed)

include hw

/-- No member of a type is a union. -/
theorem WellFormed.mem_unionMembers {t m : TypeId} (h : m ∈ st.unionMembers t) :
    (m = t ∨ m ∈ st.mentions t) ∧ ∀ ms, st.form? m ≠ some (.union ms) := by
  refine ⟨Store.mem_unionMembers h, ?_⟩
  unfold unionMembers at h
  split at h
  · simp at h
  · split at h
    · rename_i ms hl
      exact ((hw.sound t).union (form_of_lookup hl)).2 m h
    · rename_i hn
      obtain rfl := List.mem_singleton.mp h
      intro ms hf
      obtain ⟨node, hl, he⟩ := lookup_of_form hf
      cases node <;> simp only [form, reduceCtorEq] at he
      exact hn _ hl

theorem WellFormed.lt_size_of_unionMembers {t m : TypeId} (ht : t < st.size)
    (h : m ∈ st.unionMembers t) : m < st.size := by
  rcases (hw.mem_unionMembers h).1 with rfl | hm
  · exact ht
  · exact (hw.sound t).inside hm

/-- Unions and intersections were interned, so their members are older. -/
theorem WellFormed.member_lt {t m : TypeId} (h : st.Member t m) : m < t := by
  refine (hw.sound t).below ?_ h.mentioned
  obtain ⟨ms, hf, _⟩ := h
  cases hr : st.isReserved t with
  | false => rfl
  | true => rcases hf with hf | hf <;> cases hw.form_reserved hr hf

theorem WellFormed.mem_flat {types : List TypeId} {m : TypeId} (h : m ∈ st.flat types) :
    (∃ t ∈ types, m = t ∨ m ∈ st.mentions t) ∧ ∀ ms, st.form? m ≠ some (.union ms) := by
  obtain ⟨t, ht, hm⟩ := (st.mem_flat types).mp h
  obtain ⟨hmt, hu⟩ := hw.mem_unionMembers hm
  exact ⟨⟨t, ht, hmt⟩, hu⟩

theorem WellFormed.flat_lt_size {types : List TypeId} (ht : ∀ t ∈ types, t < st.size) {m : TypeId}
    (h : m ∈ st.flat types) : m < st.size := by
  obtain ⟨⟨t, hmem, rfl | hm⟩, _⟩ := hw.mem_flat h
  · exact ht m hmem
  · exact (hw.sound t).inside hm

/-- The members of a union are members of what went in; of those it only loses `never`, and literals
whose primitive stays. -/
theorem leads_mkUnion {types : List TypeId} (ht : ∀ t ∈ types, t < st.size) :
    Leads Later (mkUnion types) st (UnionAnswer st types) := by
  suffices h : Later st ((mkUnion types).run st).2 ∧
      UnionAnswer st types ((mkUnion types).run st).1 ((mkUnion types).run st).2 from
    leads_run h.1 h.2
  rw [run_mkUnion]
  cases hp : st.unionPlan types with
  | inl t => exact ⟨Evolution.refl st, unionPlan_inl hp⟩
  | inr members =>
    obtain ⟨rfl, hlen⟩ := unionPlan_inr hp
    have hkept : ∀ m ∈ st.kept types, m < st.size := fun m hm =>
      hw.flat_lt_size ht (st.mem_kept_flat types hm)
    have hmade : Leads Later (internList (st.kept types) >>= fun id => intern (.union id)) st
        (Made (.union (st.kept types))) := by
      refine (leads_internList hw _).bind fun id st' hs hid => ?_
      refine leads_intern (hs.sound hw) nofun (by simp [Placed, hid]) (by simp [form, list, hid])
        (fun c hc => Nat.lt_of_lt_of_le (hkept c hc) hs.grown.size) fun ms he => ?_
      cases he
      refine ⟨hlen, fun m hm ls => ?_⟩
      rw [hw.form_extends hs.grown (hkept m hm)]
      exact (hw.mem_flat (st.mem_kept_flat types hm)).2 ls
    exact ⟨hmade.1, .members hlen hmade.2⟩

omit hw in
theorem mem_intersectionMembers {t m : TypeId} (h : m ∈ st.intersectionMembers t) :
    m = t ∨ m ∈ st.mentions t := by
  unfold intersectionMembers at h
  split at h
  · rename_i ms hl
    exact .inr (mentions_of_form (form_of_lookup hl) ▸ h)
  · exact .inl (List.mem_singleton.mp h)

theorem leads_mkIntersection {types : List TypeId} (ht : ∀ t ∈ types, t < st.size) :
    Leads Later (mkIntersection types) st fun t st' => IntersectionAnswer st' types t := by
  have hflat {m : TypeId}
      (h : m ∈ (ascending (types.flatMap st.intersectionMembers)).filter (· ≠ .unknown)) :
      ∃ u ∈ types, m = u ∨ m ∈ st.mentions u := by
    have hmem : ∃ u ∈ types, m ∈ st.intersectionMembers u := by
      simpa [mem_ascending] using (List.mem_filter.mp h).1
    obtain ⟨u, hu, hm⟩ := hmem
    exact ⟨u, hu, mem_intersectionMembers hm⟩
  unfold mkIntersection
  refine leads_read ?_
  dsimp only
  split
  · exact Leads.pure (.intrinsic rfl)
  · split
    · exact Leads.pure (.intrinsic rfl)
    · generalize
        (ascending (types.flatMap st.intersectionMembers)).filter (· ≠ .unknown) = ms at hflat
      split
      · exact Leads.pure (.intrinsic rfl)
      · obtain ⟨u, hu, hm⟩ := hflat (List.mem_singleton.mpr rfl)
        exact Leads.pure (.member hu hm)
      · split
        · exact Leads.pure (.intrinsic rfl)
        · refine (leads_internList hw _).bind fun id st' hs hid => ?_
          have hmade : Leads Later (intern (.intersection id)) st' (Made (.intersection ms)) := by
            refine leads_intern (hs.sound hw) nofun (by simp [Placed, hid])
              (by simp [form, list, hid])
              (fun c hc => Nat.lt_of_lt_of_le ?_ hs.grown.size) nofun
            obtain ⟨u, hu, rfl | hm⟩ := hflat hc
            · exact ht c hu
            · exact (hw.sound u).inside hm
          refine hmade.mono fun t st₂ h₂ h => .members h fun m hm => ?_
          obtain ⟨u, hu, hmu⟩ := hflat hm
          refine ⟨u, hu, ?_⟩
          rwa [hw.mentions_extends (hs.grown.trans h₂.grown) (ht u hu)]

end WellFormed

section Repeats

/-- The action finds what it has built, in every store that has grown since. -/
def Repeats {α : Type} (act : StoreM α) (st : Store) : Prop :=
  ∀ st', (act.run st).2.Grows st' → act.run st' = ((act.run st).1, st')

variable {st : Store}

theorem repeats_pure {α : Type} (a : α) : Repeats (pure a : StoreM α) st := fun _ _ => rfl

theorem Repeats.bind {α β : Type} {x : StoreM α} {f : α → StoreM β} (hx : Repeats x st)
    (hf : Repeats (f (x.run st).1) (x.run st).2)
    (hg : (x.run st).2.Grows ((f (x.run st).1).run (x.run st).2).2) : Repeats (x >>= f) st := by
  intro st' h
  show (f (x.run st').1).run (x.run st').2 = _
  rw [hx st' (hg.trans h)]
  exact hf st' h

theorem repeats_intern {node : Node} (hn : ∀ kind, node ≠ .intrinsic kind) :
    Repeats (intern node) st := by
  intro st' h
  rw [run_intern hn st', h.keys (keys_intern hn st)]

theorem repeats_internList (members : List TypeId) : Repeats (internList members) st := by
  intro st' h
  have hagain : st'.lists.intern members = ((st.lists.intern members).1, st'.lists) :=
    Table.intern_again h.lists
  show ((st'.lists.intern members).1, { st' with lists := (st'.lists.intern members).2 }) = _
  rw [hagain]
  rfl

theorem repeats_internSlots (slots : List Slot) : Repeats (internSlots slots) st := by
  intro st' h
  have hagain : st'.tuples.intern slots = ((st.tuples.intern slots).1, st'.tuples) :=
    Table.intern_again h.tuples
  show ((st'.tuples.intern slots).1, { st' with tuples := (st'.tuples.intern slots).2 }) = _
  rw [hagain]
  rfl

theorem repeats_mkTuple (slots : List Slot) : Repeats (mkTuple slots) st :=
  (repeats_internSlots slots).bind (repeats_intern nofun) (extends_intern _ _).grows

section Growing

variable {st' : Store} (hw : st.WellFormed) (hg : st.Grows st')

include hw hg

theorem WellFormed.unionMembers_grows {t : TypeId} (ht : t < st.size) :
    st'.unionMembers t = st.unionMembers t := by
  unfold unionMembers
  split
  · rfl
  · cases hl : st.lookup t with
    | none =>
      rcases hg.lookup_none ht hl with hl' | ⟨body, hl', hk⟩
      · rw [hl']
      · rw [hl']
        cases body <;> first | rfl | cases hk
    | some node =>
      rw [hg.lookup hl]
      cases node with
      | union ms =>
        have hf := hw.form_grows hg (form_of_lookup hl)
        rw [form_of_lookup (hg.lookup hl)] at hf
        simpa [form] using hf
      | _ => rfl

/-- No type becomes a union. -/
theorem WellFormed.single_grows {t : TypeId} (ht : t < st.size)
    (h : ∀ ms, st.form? t ≠ some (.union ms)) (ms : List TypeId) :
    st'.form? t ≠ some (.union ms) := by
  intro hf
  cases hl : st.lookup t with
  | none =>
    obtain ⟨node, hn, he⟩ := lookup_of_form hf
    rcases hg.lookup_none ht hl with hl' | ⟨body, hl', hk⟩
    · simp [hl'] at hn
    · cases hl'.symm.trans hn
      rw [← form_isContainer st', he] at hk
      cases hk
  | some node =>
    have hsame := hw.form_grows hg (form_of_lookup hl)
    rw [hf] at hsame
    exact h ms ((form_of_lookup hl).trans hsame.symm)

theorem WellFormed.flat_grows {types : List TypeId} (ht : ∀ t ∈ types, t < st.size) :
    st'.flat types = st.flat types := by
  unfold flat
  rw [List.flatMap_congr fun t hm => hw.unionMembers_grows hg (ht t hm)]

theorem WellFormed.kept_grows {types : List TypeId} (ht : ∀ t ∈ types, t < st.size) :
    st'.kept types = st.kept types := by
  unfold kept absorbLiterals
  rw [hw.flat_grows hg ht]
  refine List.filter_congr fun m hm => ?_
  have hlt : m < st.size := hw.flat_lt_size ht (List.mem_filter.mp hm).1
  cases hl : st.lookup m with
  | none =>
    rcases hg.lookup_none hlt hl with hl' | ⟨body, hl', hk⟩
    · rw [hl']
    · rw [hl']
      cases body <;> first | rfl | cases hk
  | some node => rw [hg.lookup hl]

/-- What is planned for a union does not change while the store grows. -/
theorem WellFormed.unionPlan_grows {types : List TypeId} (ht : ∀ t ∈ types, t < st.size) :
    st'.unionPlan types = st.unionPlan types := by
  unfold unionPlan
  rw [hw.flat_grows hg ht, hw.kept_grows hg ht]

end Growing

/-- Once a union has been built, building it again finds it, in every store that has grown since. -/
theorem repeats_mkUnion (hw : st.WellFormed) {types : List TypeId} (ht : ∀ t ∈ types, t < st.size) :
    Repeats (mkUnion types) st := by
  intro st' h
  have hg : st.Grows st' := (leads_mkUnion hw ht).1.grown.grows.trans h
  rw [run_mkUnion, run_mkUnion, hw.unionPlan_grows hg ht]
  rw [run_mkUnion] at h
  cases hp : st.unionPlan types with
  | inl t => rfl
  | inr members =>
    rw [hp] at h
    have hunion (id : ListId) (st : Store) : Repeats (intern (.union id)) st := repeats_intern nofun
    exact (repeats_internList members).bind (hunion _ _) (extends_intern _ _).grows st' h

theorem repeats_remainder (slots : List Slot) : Repeats (Matcher.remainder slots) st := by
  unfold Matcher.remainder
  split
  · split
    · exact repeats_pure _
    · exact repeats_mkTuple _
  · exact repeats_mkTuple _

theorem run_elementType (slot : Slot) (st : Store) :
    (Matcher.elementType slot).run st = if slot.rest = false then (slot.type, st)
      else match st.lookup slot.type with
        | some (.array element) => (element, st)
        | some (.tuple elements) => (mkUnion ((st.slots elements).map Slot.type)).run st
        | _ => (slot.type, st) := by
  have hrun : Matcher.elementType slot st = (if !slot.rest then pure slot.type
      else match st.lookup slot.type with
        | some (.array element) => pure element
        | some (.tuple elements) => mkUnion ((st.slots elements).map Slot.type)
        | _ => pure slot.type : StoreM TypeId) st := rfl
  unfold StateT.run
  rw [hrun]
  cases slot.rest with
  | false => rfl
  | true =>
    rcases st.lookup slot.type with _ | node
    · rfl
    · cases node <;> rfl

/-- What a slot contributes is found again in every extension. -/
theorem WellFormed.element_again (hw : st.WellFormed) (st' : Store) {slot : Slot}
    (ht : slot.type < st.size)
    (he : ((Matcher.elementType slot).run st).2.Extends st')
    (hs : st.Extends ((Matcher.elementType slot).run st).2) :
    st'.Element slot ((Matcher.elementType slot).run st).1 := by
  have hst := hs.trans he
  unfold Element
  rw [run_elementType slot st', hst.lookup ht]
  rw [run_elementType] at he ⊢
  split
  · rfl
  · rename_i hr
    simp only [hr] at he
    split
    · rfl
    · rename_i elements hl
      have hf := form_of_lookup hl
      have hslots : st'.slots elements = st.slots elements := by
        have hf' := hw.form_extends hst ht
        rw [hf, form_of_lookup ((hst.lookup ht).trans hl)] at hf'
        simpa [form] using hf'
      simp only [hl] at he
      rw [hslots]
      refine repeats_mkUnion hw (fun c hc => ?_) st' he.grows
      exact (hw.sound slot.type).inside (mentions_of_form hf ▸ hc)
    · rfl

/-- What a type is made of is the same in every extension. -/
theorem WellFormed.sameParts {st' : Store} (hw : st.WellFormed) (he : st.Extends st') {s : TypeId}
    (hs : s < st.size) : SameParts st st' s where
  form := hw.form_extends he hs
  element {f slot a} hf hm h := by
    have hslot : slot.type < st.size :=
      (hw.sound s).inside (mentions_of_form hf ▸ Form.slot_mentioned hm)
    have hrun : (Matcher.elementType slot).run st = (a, st) := h
    have hagain := hw.element_again st' hslot
    rw [hrun] at hagain
    exact hagain he (.refl _)
  remainder {f n a} _ h := by
    have hrun : (Matcher.remainder (f.slots.drop n)).run st = (a, st) := h
    have hagain : Repeats (Matcher.remainder (f.slots.drop n)) st := repeats_remainder _
    have hagain := hagain st'
    rw [hrun] at hagain
    exact hagain he.grows

end Repeats

/-- The union of one type that is no union is that type. -/
theorem mkUnion_singleton {st : Store} (hf : st.Founded) {t : TypeId}
    (ht : ∀ ms, st.form? t ≠ some (.union ms)) : (mkUnion [t]).run st = (t, st) := by
  by_cases hn : t = .never
  · subst hn
    rfl
  · have hmembers : st.unionMembers t = [t] := by
      unfold unionMembers
      rw [if_neg hn]
      split
      · rename_i ms hl
        exact absurd (form_of_lookup hl) (ht _)
      · rfl
    have hflat : st.flat [t] = [t] := by
      simp [flat, hmembers, ascending, insertAscending]
    have hkept : st.kept [t] = [t] := by
      unfold kept absorbLiterals
      rw [hflat]
      have hfilter : [t].filter (· ≠ TypeId.never) = [t] := by simp [hn]
      rw [hfilter, List.filter_cons_of_pos, List.filter_nil]
      split
      · rename_i value hl
        have hne : value.primitive ≠ t := by
          rintro rfl
          have hprim : value.primitive.isIntrinsic = true := by cases value <;> rfl
          obtain ⟨kind, hk⟩ := TypeId.isIntrinsic_iff.mp hprim
          rw [← hk, hf.lookup kind] at hl
          cases hl
        simpa using hne
      · rfl
    rw [run_mkUnion]
    unfold unionPlan
    rw [hflat, hkept]
    by_cases ha : t = .any
    · subst ha
      rfl
    · by_cases hu : t = .unknown
      · subst hu
        rfl
      · have ha' : TypeId.any ∉ [t] := by simpa using Ne.symm ha
        have hu' : TypeId.unknown ∉ [t] := by simpa using Ne.symm hu
        rw [if_neg ha', if_neg hu']

/-- Distributing over the members of a type, one after the other. -/
theorem leads_distribute {m : Type → Type} [Monad m] [LawfulMonad m]
    [MonadLiftT StoreM m] {S : Type}
    [Action m S] {F : S → S → Prop} [Evolution F] (view : S → Store) {s : S}
    (read : Action.run (liftM (get : StoreM Store) : m Store) s = (view s, s))
    {subject : TypeId} {f : TypeId → m TypeId} {A : TypeId → TypeId → S → Prop}
    {Q : TypeId → S → Prop} (stable : ∀ x y, StableFrom F s (A x y))
    (hf : ∀ x ∈ (view s).unionMembers subject, ∀ s', F s s' → Leads F (f x) s' (A x))
    (none : (view s).unionMembers subject = [] → Q .never s)
    (one : ∀ x y s', F s s' → (view s).unionMembers subject = [x] → A x y s' → Q y s')
    (many : ∀ ys s', F s s' → 2 ≤ ((view s).unionMembers subject).length →
      List.Forall₂ (A · · s') ((view s).unionMembers subject) ys →
      Leads F (liftM (mkUnion ys) : m TypeId) s' Q) :
    Leads F (distribute subject f) s Q := by
  unfold distribute Leads
  rw [Action.run_bind, read]
  split
  · rename_i h
    exact Leads.pure (none h)
  · rename_i x h
    exact (hf x (by simp [h]) s (Evolution.refl s)).mono fun y s' hs hy => one x y s' hs h hy
  · rename_i hnone hone
    have hlen : 2 ≤ ((view s).unionMembers subject).length := by
      rcases hm : (view s).unionMembers subject with _ | ⟨x, _ | ⟨y, rest⟩⟩
      · exact absurd hm hnone
      · exact absurd hm (hone x)
      · simp
    exact (Leads.mapM stable hf).bind fun ys s' hs hys => many ys s' hs hlen hys

end TypeCalculus.Store
