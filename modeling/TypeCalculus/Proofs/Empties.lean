import TypeCalculus.Proofs.Kinds

namespace TypeCalculus.Store

/-- A type of the store from which no empty placeholder outside of `X` can be reached. -/
def EmptiesIn (X : TypeId → Prop) (st : Store) (t : TypeId) : Prop :=
  t < st.size ∧ ∀ u, st.Reaches t u → st.cells[u]? = some (.reserved none) → X u

/-- The types from which only the empty placeholders of some set can be reached are a kind. -/
theorem kind_emptiesIn (X : TypeId → Prop) : Kind (EmptiesIn X) := by
  refine kind_everywhere (L := fun st u => st.cells[u]? = some (.reserved none) → X u)
    (fun _ he ht h => ?_) (fun hne h => ?_) (fun hf _ hc => ?_)
  · rw [he.cell ht]
    exact h
  · rw [filled_cell_ne hne]
    exact h
  · simp [form?, lookup, hc, Cell.node?] at hf

theorem emptiesIn_nothing {st : Store} {t : TypeId} :
    EmptiesIn (fun _ => False) st t ↔ t < st.size ∧ st.Settled t :=
  Iff.rfl

variable {X Y : TypeId → Prop} {st st' : Store} {t u : TypeId}

/-- An infer variable mentions nothing. -/
theorem emptiesIn_infer {name : String} (hf : st.form? t = some (.infer name)) :
    EmptiesIn X st t := by
  refine ⟨lt_size_of_form hf, fun v hv hc => ?_⟩
  rcases Relation.ReflTransGen.cases_head hv with rfl | ⟨c, hm, _⟩
  · simp [form?, lookup, hc, Cell.node?] at hf
  · rw [mentions_of_form hf] at hm
    cases hm

theorem EmptiesIn.reached (h : EmptiesIn X st t) (hw : st.WellFormed) (hu : st.Reaches t u) :
    EmptiesIn X st u :=
  ⟨hw.lt_size_of_reaches h.1 hu, fun v hv => h.2 v (hu.trans hv)⟩

theorem EmptiesIn.mono (h : EmptiesIn X st t) (hw : st.WellFormed)
    (hXY : ∀ v < st.size, X v → Y v) :
    EmptiesIn Y st t :=
  ⟨h.1, fun v hv hc => hXY v (hw.lt_size_of_reaches h.1 hv) (h.2 v hv hc)⟩

/-- Extensions add nothing to what can be reached. -/
theorem emptiesIn_extends (hw : st.WellFormed) (he : st.Extends st') (ht : t < st.size) :
    EmptiesIn X st' t ↔ EmptiesIn X st t := by
  refine ⟨fun h => ⟨ht, fun v hv hc => ?_⟩, (kind_emptiesIn X).later hw he⟩
  have hlt := hw.lt_size_of_reaches ht hv
  exact h.2 v ((hw.reaches_extends he ht).mpr hv) ((he.cell hlt).trans hc)

/-- An empty placeholder reaches nothing but itself. -/
theorem emptiesIn_empty (hc : st.cells[u]? = some (.reserved none)) (hu : X u) :
    EmptiesIn X st u := by
  refine ⟨(List.getElem?_eq_some_iff.mp hc).1, fun v hv _ => ?_⟩
  rcases Relation.ReflTransGen.cases_head hv with rfl | ⟨c, hm, _⟩
  · exact hu
  · simp [mentions_eq, form?, lookup, hc, Cell.node?] at hm

section Filled

variable {body : Node} (hc : st.cells[u]? = some (.reserved none))

include hc

theorem reaches_filled {v : TypeId} (h : st.Reaches t v) : (st.filled u body).Reaches t v := by
  refine Relation.ReflTransGen.mono (fun a b hb => ?_) t v h
  by_cases ha : a = u
  · subst ha
    simp [mentions_eq, form?, lookup, hc, Cell.node?] at hb
  · rw [filled_mentions_ne ha]
    exact hb

/-- A path that was not there before leads through the body. -/
theorem reaches_of_filled {v : TypeId} (h : (st.filled u body).Reaches t v) : st.Reaches t v ∨
    st.Reaches t u ∧ ∃ c ∈ (st.form body).mentions, (st.filled u body).Reaches c v := by
  induction h with
  | refl => exact .inl .refl
  | @tail a b _ hb ih =>
    rcases ih with ha | ⟨hu, c, hm, ha⟩
    · by_cases he : a = u
      · subst he
        exact .inr ⟨ha, b, filled_mentions hc ▸ hb, .refl⟩
      · exact .inl (ha.tail (filled_mentions_ne he ▸ hb))
    · exact .inr ⟨hu, c, hm, ha.tail hb⟩

/-- Before the placeholder was given its body, it was one more that could be reached. -/
theorem EmptiesIn.before (h : EmptiesIn X (st.filled u body) t) :
    EmptiesIn (fun v => X v ∨ v = u) st t := by
  have ht : t < st.size := by
    rw [← filled_size]
    exact h.1
  refine ⟨ht, fun v hv he => ?_⟩
  by_cases hvu : v = u
  · exact .inr hvu
  · exact .inl (h.2 v (reaches_filled hc hv) ((filled_cell_ne hvu).trans he))

/-- After that, it is one less, if what it leads to is within the set. -/
theorem EmptiesIn.filled (h : EmptiesIn (fun v => X v ∨ v = u) st t)
    (hbody : st.Reaches t u → ∀ c ∈ (st.form body).mentions, EmptiesIn X (st.filled u body) c) :
    EmptiesIn X (st.filled u body) t := by
  refine ⟨filled_lt h.1, fun v hv he => ?_⟩
  have hvu : v ≠ u := by
    rintro rfl
    rw [filled_cell hc] at he
    cases he
  rcases reaches_of_filled hc hv with hv | ⟨hu, c, hm, hv⟩
  · exact (h.2 v hv ((filled_cell_ne hvu).symm.trans he)).resolve_right hvu
  · exact (hbody hu c hm).2 v hv he

/-- The body may lead back to its own placeholder. -/
theorem EmptiesIn.closed (hw : st.WellFormed) (hk : body.isContainer = true)
    (hbody : ∀ c ∈ (st.form body).mentions, EmptiesIn (fun v => X v ∨ v = u) st c)
    (h : EmptiesIn (fun v => X v ∨ v = u) st t) : EmptiesIn X (st.filled u body) t := by
  obtain ⟨ht, h⟩ := (kind_emptiesIn _).filled hw hc hk hbody h
  refine ⟨ht, fun v hv he => (h v hv he).resolve_right ?_⟩
  rintro rfl
  rw [filled_cell hc] at he
  cases he

end Filled

/-- An answer that reaches empty placeholders of `X` only, if its sources do. -/
def Drawn (X : TypeId → Prop) (st : Store) (sources : Set TypeId) (a : TypeId) : Prop :=
  (∀ t ∈ sources, EmptiesIn X st t) → EmptiesIn X st a

variable {sources : Set TypeId} {a : TypeId}

theorem Drawn.later (h : Drawn X st sources a) (hw : st.WellFormed) (he : st.Extends st')
    (hs : ∀ t ∈ sources, t < st.size) : Drawn X st' sources a :=
  fun hin => (kind_emptiesIn X).later hw he
    (h fun t ht => (emptiesIn_extends hw he (hs t ht)).mp (hin t ht))

/-- Only the empty placeholders of the store matter. -/
theorem Drawn.congr (h : Drawn X st sources a) (hw : st.WellFormed)
    (hXY : ∀ v < st.size, X v ↔ Y v) : Drawn Y st sources a :=
  fun hin => (h fun t ht => (hin t ht).mono hw fun v hv => (hXY v hv).mpr).mono hw
    fun v hv => (hXY v hv).mp

theorem iff_or_of_lt {n v : TypeId} (hv : v < n) : X v ↔ X v ∨ v = n := by
  simp [Nat.ne_of_lt hv]

theorem iff_and_of_lt {n v : TypeId} (hv : v < n) : X v ↔ X v ∧ v ≠ n := by
  simp [Nat.ne_of_lt hv]

/-- A placeholder is given a body, whatever it is. Either the body is within the set, or before it
was given the answer could not reach the placeholder but by way of its sources. -/
theorem Drawn.filled {body : Node} (hc : st.cells[u]? = some (.reserved none))
    (hw : st.WellFormed) (hk : body.isContainer = true)
    (hw' : (st.filled u body).WellFormed) (h : Drawn (fun v => X v ∨ v = u) st sources a)
    (hbody : (∀ c ∈ (st.form body).mentions, EmptiesIn (fun v => X v ∨ v = u) st c) ∨
      Drawn (fun v => X v ∧ v ≠ u) st sources a) :
    Drawn X (st.filled u body) sources a := by
  intro hin
  have hbefore : ∀ t ∈ sources, EmptiesIn (fun v => X v ∨ v = u) st t :=
    fun t ht => (hin t ht).before hc
  have ha := h hbefore
  rcases hbody with hbody | hwithout
  · exact EmptiesIn.closed hc hw hk hbody ha
  · refine EmptiesIn.filled hc ha fun hau => ?_
    by_cases hr : ∃ t ∈ sources, st.Reaches t u
    · obtain ⟨t, ht, hu⟩ := hr
      intro c hm
      exact (hin t ht).reached hw' ((reaches_filled hc hu).tail (filled_mentions hc ▸ hm))
    · -- The sources do not lead to the placeholder, so the answer does not either.
      have hnot : ∀ t ∈ sources, EmptiesIn (fun v => X v ∧ v ≠ u) st t := by
        intro t ht
        refine ⟨(hbefore t ht).1, fun v hv he => ?_⟩
        have hvu : v ≠ u := by
          rintro rfl
          exact hr ⟨t, ht, hv⟩
        exact ⟨((hbefore t ht).2 v hv he).resolve_right hvu, hvu⟩
      exact absurd rfl ((hwithout hnot).2 u hau hc).2

end TypeCalculus.Store
