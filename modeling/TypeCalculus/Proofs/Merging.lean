import TypeCalculus.Proofs.UnionLaws

namespace TypeCalculus

theorem ascending_congr {ts us : List TypeId} (h : ∀ t, t ∈ ts ↔ t ∈ us) :
    ascending ts = ascending us :=
  (pairwise_ascending ts).eq_of_mem_iff (pairwise_ascending us) fun t => by
    rw [mem_ascending, mem_ascending, h]

def Variance.merge : Variance → List TypeId → StoreM TypeId
  | .covariant => Store.mkUnion
  | .contravariant => Store.mkIntersection

def Variance.mergeAll (v : Variance) (first : TypeId) (rest : List TypeId) : StoreM TypeId :=
  rest.foldlM (fun held t => v.merge [held, t]) first

def Bindings.bindAll (bindings : Bindings) (name : String) (candidates : List TypeId)
    (v : Variance) :
    StoreM Bindings :=
  candidates.foldlM (fun bindings candidate => bindings.bind name candidate v) bindings

namespace Bindings

variable {bindings : Bindings} {name : String} (candidate : TypeId) (v : Variance) (st : Store)

theorem run_bind_unbound (h : bindings.get? name = none) :
    (bindings.bind name candidate v).run st = (bindings.insert name candidate, st) := by
  unfold bind
  rw [h]
  rfl

/-- A variable that is bound merges the next candidate into what it holds. -/
theorem run_bind_held {held : TypeId} (h : bindings.get? name = some held) :
    (bindings.bind name candidate v).run st =
    (bindings.insert name ((v.merge [held, candidate]).run st).1,
      ((v.merge [held, candidate]).run st).2) := by
  unfold bind
  rw [h]
  cases v <;> rfl

/-- A name that is bound holds what was merged. -/
theorem get?_bindAll_held {candidates : List TypeId} {held : TypeId}
    (h : bindings.get? name = some held) :
    ((bindings.bindAll name candidates v).run st).1.get? name =
    some ((v.mergeAll held candidates).run st).1 ∧
      ((bindings.bindAll name candidates v).run st).2 =
      ((v.mergeAll held candidates).run st).2 := by
  induction candidates generalizing bindings held st with
  | nil => exact ⟨h, rfl⟩
  | cons candidate candidates ih =>
    have hbound : (bindings.insert name ((v.merge [held, candidate]).run st).1).get? name =
        some ((v.merge [held, candidate]).run st).1 := by simp [Dict.get?_insert]
    unfold bindAll Variance.mergeAll
    rw [List.foldlM_cons, List.foldlM_cons, StateT.run_bind, StateT.run_bind,
      run_bind_held candidate v st h]
    exact ih _ hbound

/-- A variable that meets several candidates holds what they are merged into. -/
theorem get?_bindAll {candidates : List TypeId} {first : TypeId} {rest : List TypeId}
    (h : (bindings.get? name).toList ++ candidates = first :: rest) :
    ((bindings.bindAll name candidates v).run st).1.get? name =
    some ((v.mergeAll first rest).run st).1 ∧
      ((bindings.bindAll name candidates v).run st).2 = ((v.mergeAll first rest).run st).2 := by
  cases hb : bindings.get? name with
  | some held =>
    rw [hb] at h
    obtain ⟨rfl, rfl⟩ := List.cons.inj h
    exact get?_bindAll_held v st hb
  | none =>
    rw [hb] at h
    cases h
    have hbound : (bindings.insert name first).get? name = some first := by simp [Dict.get?_insert]
    have hcons : (bindings.bindAll name (first :: rest) v).run st =
        (bindAll (bindings.insert name first) name rest v).run st := by
      unfold bindAll
      rw [List.foldlM_cons, StateT.run_bind, run_bind_unbound first v st hb]
      rfl
    rw [hcons]
    exact get?_bindAll_held v st hbound

end Bindings

namespace Store

variable (st : Store) {xs ys : List TypeId} (h : ∀ t, t ∈ xs ↔ t ∈ ys)

include h

theorem flat_congr : st.flat xs = st.flat ys :=
  ascending_congr fun t => by simp only [List.mem_flatMap, h]

theorem crossing_congr : ascending (xs.flatMap st.intersectionMembers) =
    ascending (ys.flatMap st.intersectionMembers) :=
  ascending_congr fun t => by simp only [List.mem_flatMap, h]

end Store

/-- Order and repetition do not matter. -/
theorem Variance.run_merge_congr (v : Variance) (st : Store) {xs ys : List TypeId}
    (h : ∀ t, t ∈ xs ↔ t ∈ ys) : (v.merge xs).run st = (v.merge ys).run st := by
  cases v with
  | covariant =>
    show (Store.mkUnion xs).run st = (Store.mkUnion ys).run st
    rw [Store.run_mkUnion, Store.run_mkUnion, Store.unionPlan, Store.unionPlan,
      Store.kept, Store.kept, st.flat_congr h]
  | contravariant =>
    show (Store.mkIntersection xs).run st = (Store.mkIntersection ys).run st
    rw [Store.run_mkIntersection, Store.run_mkIntersection, Store.intersectionPlan,
      Store.intersectionPlan, Store.crossed, Store.crossed, st.crossing_congr h]

structure Variance.Regroups (v : Variance) (st : Store) (xs ys : List TypeId) : Prop where
  same {zs : List TypeId} : (∀ t, t ∈ zs ↔ t ∈ xs) → (v.merge zs).run st = (v.merge xs).run st
  again : let part := (v.merge xs).run st
    (v.merge xs).run part.2 = part
  part : let part := (v.merge xs).run st
    (v.merge (part.1 :: ys)).run part.2 = (v.merge (xs ++ ys)).run part.2
  /-- The whole may have been merged before. -/
  whole : let whole := (v.merge (xs ++ ys)).run st
    let part := (v.merge xs).run whole.2
    (v.merge (part.1 :: ys)).run part.2 = (whole.1, part.2)

structure Variance.Gathers (v : Variance) (st : Store) (first : TypeId)
    (rest : List TypeId) : Prop where
  before {zs : List TypeId} : (∀ t, t ∈ zs ↔ t ∈ first :: rest) →
    let last := (v.mergeAll first rest).run st
    (v.merge zs).run last.2 = last
  after {zs : List TypeId} : (∀ t, t ∈ zs ↔ t ∈ first :: rest) →
    let whole := (v.merge zs).run st
    ((v.mergeAll first rest).run whole.2).1 = whole.1
  bound {bindings : Bindings} {name : String} {candidates : List TypeId} :
    (bindings.get? name).toList ++ candidates = first :: rest →
    let bound := (bindings.bindAll name candidates v).run st
    let last := (v.mergeAll first rest).run st
    bound.1.get? name = some last.1 ∧ bound.2 = last.2

/-- Stores in which certain types can be merged in any groups, and what happens to them
meanwhile. -/
structure Merging (v : Variance) where
  Good : Store → Prop
  Fit : Store → TypeId → Prop
  Later : Store → Store → Prop
  refl (st : Store) : Later st st
  trans {st st' st'' : Store} : Later st st' → Later st' st'' → Later st st''
  kept {st st' : Store} {t : TypeId} : Later st st' → Fit st t → Fit st' t
  merged {st : Store} {types : List TypeId} : Good st → (∀ t ∈ types, Fit st t) →
    Good ((v.merge types).run st).2 ∧ Later st ((v.merge types).run st).2
  repeats {st st' : Store} {types : List TypeId} : Good st → (∀ t ∈ types, Fit st t) →
    Later ((v.merge types).run st).2 st' →
    (v.merge types).run st' = (((v.merge types).run st).1, st')
  regroup {st : Store} {seen types : List TypeId} {a : TypeId} : Good st → (∀ t ∈ seen, Fit st t) →
    (∀ t ∈ types, Fit st t) → (v.merge seen).run st = (a, st) →
    (v.merge (a :: types)).run st = (v.merge (seen ++ types)).run st

namespace Merging

variable {v : Variance} (m : Merging v) {st : Store}

theorem again (hg : m.Good st) {types : List TypeId} (ht : ∀ t ∈ types, m.Fit st t) :
    (v.merge types).run ((v.merge types).run st).2 = (v.merge types).run st :=
  m.repeats hg ht (m.refl _)

theorem regroups (hg : m.Good st) {xs ys : List TypeId} (hx : ∀ t ∈ xs, m.Fit st t)
    (hy : ∀ t ∈ ys, m.Fit st t) : v.Regroups st xs ys where
  same h := v.run_merge_congr st h
  again := m.again hg hx
  part := by
    obtain ⟨hg', hlater⟩ := m.merged hg hx
    exact m.regroup hg' (fun t ht => m.kept hlater (hx t ht)) (fun t ht => m.kept hlater (hy t ht))
      (m.again hg hx)
  whole := by
    intro whole part
    have hall : ∀ t ∈ xs ++ ys, m.Fit st t := fun t ht => (List.mem_append.mp ht).elim (hx t) (hy t)
    obtain ⟨hg₁, h₁⟩ := m.merged hg hall
    have hx₁ : ∀ t ∈ xs, m.Fit whole.2 t := fun t ht => m.kept h₁ (hx t ht)
    obtain ⟨hg₂, h₂⟩ := m.merged hg₁ hx₁
    have hregroup : (v.merge (part.1 :: ys)).run part.2 = (v.merge (xs ++ ys)).run part.2 :=
      m.regroup hg₂ (fun t ht => m.kept h₂ (hx₁ t ht))
        (fun t ht => m.kept (m.trans h₁ h₂) (hy t ht))
        (m.again hg₁ hx₁)
    rw [hregroup]
    exact m.repeats hg hall h₂

/-- Types are merged into what was merged of others before. -/
theorem run_mergeAll (hg : m.Good st) {seen rest : List TypeId} {held : TypeId}
    (hseen : ∀ t ∈ seen, m.Fit st t) (hrest : ∀ t ∈ rest, m.Fit st t)
    (h : (v.merge seen).run st = (held, st)) :
    let last := (v.mergeAll held rest).run st
    m.Later st last.2 ∧ (v.merge (seen ++ rest)).run last.2 = last := by
  induction rest generalizing st seen held with
  | nil =>
    rw [List.append_nil]
    exact ⟨m.refl st, h⟩
  | cons t rest ih =>
    have ht : ∀ u ∈ [t], m.Fit st u :=
      fun u hu => hrest u (List.mem_singleton.mp hu ▸ List.mem_cons_self ..)
    have hmore : ∀ u ∈ seen ++ [t], m.Fit st u :=
      fun u hu => (List.mem_append.mp hu).elim (hseen u) (ht u)
    have hstep : (v.merge [held, t]).run st = (v.merge (seen ++ [t])).run st :=
      m.regroup hg hseen ht h
    obtain ⟨hg₁, h₁⟩ := m.merged hg hmore
    obtain ⟨hlater, hlast⟩ := ih hg₁ (fun u hu => m.kept h₁ (hmore u hu))
      (fun u hu => m.kept h₁ (hrest u (List.mem_cons_of_mem t hu))) (m.again hg hmore)
    rw [List.append_assoc] at hlast
    have hcons : (v.mergeAll held (t :: rest)).run st =
        (v.mergeAll ((v.merge (seen ++ [t])).run st).1 rest).run
          ((v.merge (seen ++ [t])).run st).2 := by
      unfold Variance.mergeAll
      rw [List.foldlM_cons, StateT.run_bind, hstep]
      rfl
    rw [hcons]
    exact ⟨m.trans h₁ hlater, hlast⟩

/-- Merging all but the last, and then the last, is merging all at once. -/
theorem run_mergeAll_cons (hg : m.Good st) {first second : TypeId} {rest : List TypeId}
    (ht : ∀ t ∈ first :: second :: rest, m.Fit st t) :
    let last := (v.mergeAll first (second :: rest)).run st
    m.Later st last.2 ∧ (v.merge (first :: second :: rest)).run last.2 = last := by
  have hpair : ∀ t ∈ [first, second], m.Fit st t :=
    fun t hm => ht t (List.mem_append_left rest hm)
  obtain ⟨hg₁, h₁⟩ := m.merged hg hpair
  obtain ⟨hlater, hlast⟩ := m.run_mergeAll hg₁ (fun t hm => m.kept h₁ (hpair t hm))
    (fun t hm => m.kept h₁ (ht t (List.mem_append_right [first, second] hm))) (m.again hg hpair)
  exact ⟨m.trans h₁ hlater, hlast⟩

/-- Types that can be merged one after another can be merged in any order. -/
theorem gathers (hg : m.Good st) {first : TypeId} {rest : List TypeId}
    (ht : ∀ t ∈ first :: rest, m.Fit st t)
    (h : ∀ st', m.Good st' → m.Later st st' →
      let last := (v.mergeAll first rest).run st'
      m.Later st' last.2 ∧ (v.merge (first :: rest)).run last.2 = last) :
    v.Gathers st first rest where
  before hz := by
    intro last
    rw [v.run_merge_congr last.2 hz]
    exact (h st hg (m.refl st)).2
  after {zs} hz := by
    intro whole
    have htz : ∀ t ∈ zs, m.Fit st t := fun t hm => ht t ((hz t).mp hm)
    obtain ⟨hg₁, h₁⟩ := m.merged hg htz
    obtain ⟨hlater, hlast⟩ := h whole.2 hg₁ h₁
    rw [← v.run_merge_congr _ hz, m.repeats hg htz hlater] at hlast
    exact (congrArg Prod.fst hlast).symm
  bound hb := Bindings.get?_bindAll v st hb

end Merging

end TypeCalculus
