import TypeCalculus.Proofs.WellFormed

namespace TypeCalculus.Store

/-- Every type within reach was interned. -/
def Solid (st : Store) (t : TypeId) : Prop :=
  ∀ u, st.Reaches t u → ∃ node, st.cells[u]? = some (.interned node)

section Solid

variable {st st' : Store} {t : TypeId}

theorem Solid.cell (h : st.Solid t) : ∃ node, st.cells[t]? = some (.interned node) := h t .refl

theorem Solid.lt_size (h : st.Solid t) : t < st.size := by
  obtain ⟨node, hc⟩ := h.cell
  exact (List.getElem?_eq_some_iff.mp hc).1

theorem Solid.child (h : st.Solid t) {c : TypeId} (hc : c ∈ st.mentions t) : st.Solid c := by
  intro u hu
  apply h u
  exact .head hc hu

theorem Solid.isReserved (h : st.Solid t) : st.isReserved t = false := by
  obtain ⟨node, hc⟩ := h.cell
  simp [Store.isReserved, hc]

theorem mentions_of_cell {node : Node} (hc : st.cells[t]? = some (.interned node)) :
    st.mentions t = st.children node := by
  simp [mentions, lookup, hc, Cell.node?]

/-- An interned type is solid if its parts are. -/
theorem solid_of_cell {node : Node} (hc : st.cells[t]? = some (.interned node))
    (h : ∀ c ∈ st.children node, st.Solid c) : st.Solid t := by
  intro u hu
  rcases Relation.ReflTransGen.cases_head hu with rfl | ⟨c, hm, hcu⟩
  · exact ⟨node, hc⟩
  · rw [mentions_of_cell hc] at hm
    exact h c hm u hcu

theorem Founded.solid (hf : st.Founded) (kind : Intrinsic) : st.Solid kind.id := by
  intro u hu
  rw [hf.reaches hu]
  exact ⟨_, hf kind⟩

theorem Solid.lookup_widens (h : st.Solid t) (hs : st.Widens st') : st'.lookup t = st.lookup t := by
  obtain ⟨node, hc⟩ := h.cell
  simp [lookup, hc, hs.interned hc]

section Anchored

variable (ha : st.Anchored) (h : st.Solid t) (hs : st.Widens st')

include ha h hs

theorem Solid.form_widens : st'.form? t = st.form? t := by
  obtain ⟨node, hc⟩ := h.cell
  have hl : st.lookup t = some node := by simp [lookup, hc, Cell.node?]
  rw [form_of_lookup hl, form_of_lookup ((h.lookup_widens hs).trans hl), hs.form (ha.placed hl)]

theorem Solid.mentions_widens : st'.mentions t = st.mentions t := by
  rw [mentions_eq, mentions_eq, h.form_widens ha hs]

theorem Solid.reaches_widens {u : TypeId} : st'.Reaches t u ↔ st.Reaches t u := by
  constructor
  · intro hu
    have hin : st.Reaches t u ∧ st.Solid u := by
      refine hu.inside (X := fun u => st.Reaches t u ∧ st.Solid u) (fun x hx c hc => ?_) ⟨.refl, h⟩
      rw [hx.2.mentions_widens ha hs] at hc
      exact ⟨hx.1.tail hc, hx.2.child hc⟩
    exact hin.1
  · intro hu
    have hin : st'.Reaches t u ∧ st.Solid u := by
      refine hu.inside (X := fun u => st'.Reaches t u ∧ st.Solid u) (fun x hx c hc => ?_) ⟨.refl, h⟩
      refine ⟨hx.1.tail ?_, hx.2.child hc⟩
      rw [hx.2.mentions_widens ha hs]
      exact hc
    exact hin.1

theorem Solid.widens : st'.Solid t := by
  intro u hu
  obtain ⟨node, hc⟩ := h u ((h.reaches_widens ha hs).mp hu)
  exact ⟨node, hs.interned hc⟩

end Anchored

/-- Placeholders stay placeholders, so a type of an anchored store that becomes solid was solid. -/
theorem Anchored.solid_of_widens (ha : st.Anchored) (hs : st.Widens st') (ht : t < st.size)
    (h : st'.Solid t) : st.Solid t := by
  have cell {u : TypeId} (hu : u < st.size) (hc : st'.Solid u) :
      ∃ node, st.cells[u]? = some (.interned node) := by
    have hcell : st.cells[u]? = some st.cells[u] := List.getElem?_eq_getElem hu
    cases hold : st.cells[u] with
    | interned node => exact ⟨node, hold ▸ hcell⟩
    | reserved body =>
      have hr := hs.reserved (t := u) (by simp [Store.isReserved, hcell, hold])
      rw [hc.isReserved] at hr
      cases hr
  intro u hu
  have hin : u < st.size ∧ st'.Solid u := by
    refine hu.inside (X := fun u => u < st.size ∧ st'.Solid u) (fun x hx c hc => ?_) ⟨ht, h⟩
    obtain ⟨node, hcell⟩ := cell hx.1 hx.2
    have hl : st.lookup x = some node := by simp [lookup, hcell, Cell.node?]
    refine ⟨ha.inside hc, hx.2.child ?_⟩
    rw [mentions_of_form (form_of_lookup hl)] at hc
    rw [mentions_of_cell (hs.interned hcell), ← form_mentions, hs.form (ha.placed hl)]
    exact hc
  exact cell hin.1 hin.2

end Solid

/-- Whatever is within reach reads the same in the other store. -/
def Steady (st st' : Store) (t : TypeId) : Prop :=
  ∀ u, st.Reaches t u → st'.lookup u = st.lookup u ∧ st'.form? u = st.form? u

section Steady

variable {st st' : Store} {t : TypeId}

theorem Solid.steady (h : st.Solid t) (ha : st.Anchored) (hs : st.Widens st') :
    st.Steady st' t := by
  intro u hu
  have hsolid : st.Solid u := fun v hv => h v (hu.trans hv)
  exact ⟨hsolid.lookup_widens hs, hsolid.form_widens ha hs⟩

/-- The types of an anchored store read the same in every extension. -/
theorem Anchored.steady (ha : st.Anchored) (hs : st.Extends st') (ht : t < st.size) :
    st.Steady st' t := by
  intro u hu
  have hlt : u < st.size := hu.inside (X := (· < st.size)) (fun _ _ _ hc => ha.inside hc) ht
  exact ⟨hs.lookup hlt, ha.form_extends hs hlt⟩

theorem WellFormed.steady (hw : st.WellFormed) (hs : st.Extends st') (ht : t < st.size) :
    st.Steady st' t := by
  intro u hu
  have hlt := hw.lt_size_of_reaches ht hu
  exact ⟨hs.lookup hlt, hw.form_extends hs hlt⟩

namespace Steady

variable (h : st.Steady st' t)

include h

theorem lookup : st'.lookup t = st.lookup t := (h t .refl).1

theorem form : st'.form? t = st.form? t := (h t .refl).2

theorem mentions : st'.mentions t = st.mentions t := by
  rw [mentions_eq, mentions_eq, (h t .refl).2]

theorem child {c : TypeId} (hc : c ∈ st.mentions t) : st.Steady st' c :=
  fun u hu => h u (.head hc hu)

/-- Reading out the type gives the same parts. -/
theorem form_node {node : Node} (hl : st.lookup t = some node) : st'.form node = st.form node := by
  have hf := (h t .refl).2
  rw [form_of_lookup hl, form_of_lookup (h.lookup.trans hl)] at hf
  exact Option.some.inj hf

end Steady

end Steady

theorem dropWhile_congr {α : Type} {p q : α → Bool} {xs : List α} (h : ∀ x ∈ xs, p x = q x) :
    xs.dropWhile p = xs.dropWhile q := by
  induction xs with
  | nil => rfl
  | cons x xs ih =>
    rw [List.dropWhile_cons, List.dropWhile_cons, h x (by simp)]
    split
    · apply ih
      intro y hy
      exact h y (by simp [hy])
    · rfl

section Search

variable {st st' : Store} {enqueue : List TypeId → List TypeId → List TypeId} {room : Nat}
variable {waiting found : List TypeId}

/-- The search through a type that reads the same takes the same steps. -/
theorem discover_steady
    (joins : ∀ mentioned rest t, t ∈ enqueue mentioned rest → t ∈ mentioned ∨ t ∈ rest)
    (hsteady : ∀ t ∈ waiting, st.Steady st' t) :
    st'.discover enqueue room waiting found = st.discover enqueue room waiting found := by
  induction room generalizing waiting found with
  | zero => rfl
  | succ room ih =>
    have hopen : waiting.dropWhile (fun t => !st'.isOpen found t) =
        waiting.dropWhile (fun t => !st.isOpen found t) := by
      apply dropWhile_congr
      intro t ht
      simp [isOpen, (hsteady t ht).lookup]
    rw [discover, discover, hopen]
    cases hd : waiting.dropWhile (fun t => !st.isOpen found t) with
    | nil => rfl
    | cons t rest =>
      have hmem : ∀ u ∈ t :: rest, st.Steady st' u := by
        intro u hu
        exact hsteady u ((List.dropWhile_sublist _).subset (hd ▸ hu))
      have ht := hmem t (by simp)
      simp only [ht.mentions]
      congr 1
      apply ih
      intro u hu
      rcases joins _ _ _ hu with hu | hu
      · exact ht.child hu
      · exact hmem u (by simp [hu])

/-- A search that ends before its room does finds nothing more in a larger room. -/
theorem discover_room (h : (st.discover enqueue room waiting found).length < room) (extra : Nat) :
    st.discover enqueue (room + extra) waiting found = st.discover enqueue room waiting found := by
  induction room generalizing waiting found with
  | zero => simp at h
  | succ room ih =>
    rw [Nat.add_right_comm, discover, discover]
    rw [discover] at h
    cases hd : waiting.dropWhile (fun t => !st.isOpen found t) with
    | nil => rfl
    | cons t rest =>
      simp only [hd, List.length_cons] at h ⊢
      congr 1
      apply ih
      omega

/-- A search finds no type twice, and none that was found before. -/
theorem discover_nodup (st : Store) (enqueue : List TypeId → List TypeId → List TypeId) (room : Nat)
    (waiting found : List TypeId) : (st.discover enqueue room waiting found).Nodup ∧
    ∀ t ∈ st.discover enqueue room waiting found, st.Followed t ∧ t ∉ found := by
  induction room generalizing waiting found with
  | zero => simp [discover]
  | succ room ih =>
    rcases discover_cases st enqueue room waiting found with ⟨_, he⟩ | ⟨_, t, rest, _, _, ho, he⟩
    · simp [he]
    · obtain ⟨hnodup, hnew⟩ := ih (enqueue (st.mentions t) rest) (t :: found)
      rw [he]
      constructor
      · apply List.nodup_cons.mpr
        refine ⟨fun hm => ?_, hnodup⟩
        exact (hnew t hm).2 (by simp)
      · intro u hu
        rcases List.mem_cons.mp hu with rfl | hu
        · exact isOpen_iff.mp ho
        · have hu := hnew u hu
          exact ⟨hu.1, fun hm => hu.2 (by simp [hm])⟩

end Search

section Reads

variable {st st' : Store} {t : TypeId}

/-- The intrinsic types are never found, so a search never needs all its room. -/
theorem reachable_length (hf : st.Founded) (t : TypeId) : (st.reachable t).length < st.size := by
  obtain ⟨hnodup, hfollowed⟩ :=
    discover_nodup st (fun mentioned rest => mentioned.reverse ++ rest) st.size [t] []
  have hany : TypeId.any < st.size := (hf.solid .any).lt_size
  have hnew : TypeId.any ∉ st.reachable t := by
    intro hm
    obtain ⟨⟨hi, _⟩, _⟩ := hfollowed _ hm
    cases hi
  have hsub : TypeId.any :: st.reachable t ⊆ List.range st.size := by
    intro u hu
    rcases List.mem_cons.mp hu with rfl | hu
    · exact List.mem_range.mpr hany
    · exact List.mem_range.mpr (lt_size_of_lookup (hfollowed u hu).1.2)
  have hlen := ((List.nodup_cons.mpr ⟨hnew, hnodup⟩).subperm hsub).length_le
  simp only [List.length_cons, List.length_range] at hlen
  omega

theorem Widens.size (hs : st.Widens st') : st.size ≤ st'.size := by
  apply Nat.le_of_not_lt
  intro hlt
  have hcell : st.cells[st'.size]? = some st.cells[st'.size] := List.getElem?_eq_getElem hlt
  have hnone : st'.cells[st'.size]? = none := List.getElem?_eq_none (Nat.le_refl _)
  cases hold : st.cells[st'.size] with
  | interned node =>
    rw [hold] at hcell
    simp [hs.interned hcell] at hnone
  | reserved body =>
    have hr := hs.reserved (t := st'.size) (by simp [isReserved, hcell, hold])
    simp [isReserved, hnone] at hr

namespace Steady

variable (h : st.Steady st' t) (hf : st.Founded) (hs : st.size ≤ st'.size)

include h hf

theorem lookup_reachable {u : TypeId} (hu : u ∈ st.reachable t) : st'.lookup u = st.lookup u :=
  (h u ((mem_reachable hf).mp hu).2).1

include hs

theorem reachable : st'.reachable t = st.reachable t := by
  have hsame : st'.discover (fun mentioned rest => mentioned.reverse ++ rest) st.size [t] [] =
      st.reachable t := by
    apply discover_steady
    · intro mentioned rest u hu
      simpa using hu
    · simpa using h
  have hlen := reachable_length hf t
  rw [← hsame] at hlen
  have hroom := discover_room hlen (st'.size - st.size)
  rw [Nat.add_sub_cancel' hs] at hroom
  exact hroom.trans hsame

theorem scan (test : Node → Bool) : st'.reaches test t = st.reaches test t := by
  unfold reaches
  rw [h.reachable hf hs, Bool.eq_iff_iff, List.any_eq_true, List.any_eq_true]
  constructor
  · rintro ⟨u, hu, ht⟩
    exact ⟨u, hu, h.lookup_reachable hf hu ▸ ht⟩
  · rintro ⟨u, hu, ht⟩
    exact ⟨u, hu, (h.lookup_reachable hf hu).symm ▸ ht⟩

/-- It finds the same variables, in the same order. -/
theorem inferVariables : st'.inferVariables t = st.inferVariables t := by
  unfold Store.inferVariables
  rw [h.reachable hf hs]
  congr 1
  apply List.filterMap_congr
  intro u hu
  rw [h.lookup_reachable hf hu]

end Steady

end Reads

end TypeCalculus.Store
