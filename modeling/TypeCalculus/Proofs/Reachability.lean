import Mathlib.Data.List.Perm.Subperm
import Mathlib.Data.List.TakeWhile
import TypeCalculus.Proofs.Form

namespace TypeCalculus

theorem TypeId.isIntrinsic_iff {t : TypeId} :
    t.isIntrinsic = true ↔ ∃ kind : Intrinsic, kind.id = t := by
  constructor
  · intro h
    have hlt : t < Intrinsic.all.length := by simpa [TypeId.isIntrinsic, Intrinsic.all] using h
    have hid : ∀ place : Fin Intrinsic.all.length, (Intrinsic.all.get place).id = place := by decide
    exact ⟨Intrinsic.all.get ⟨t, hlt⟩, hid ⟨t, hlt⟩⟩
  · rintro ⟨kind, rfl⟩
    cases kind <;> rfl

namespace Store

/-- The intrinsic types stand at their places. -/
def Founded (st : Store) : Prop :=
  ∀ kind : Intrinsic, st.cells[kind.id]? = some (.interned (.intrinsic kind))

theorem Founded.lookup {st : Store} (h : st.Founded) (kind : Intrinsic) :
    st.lookup kind.id = some (.intrinsic kind) := by
  simp [Store.lookup, h kind, Cell.node?]

theorem Founded.form {st : Store} (h : st.Founded) (kind : Intrinsic) :
    st.form? kind.id = some (.intrinsic kind) :=
  form_of_lookup (h.lookup kind)

/-- Intrinsic types mention nothing. -/
theorem Founded.mentions {st : Store} (h : st.Founded) {t : TypeId} (ht : t.isIntrinsic = true) :
    st.mentions t = [] := by
  obtain ⟨kind, rfl⟩ := TypeId.isIntrinsic_iff.mp ht
  rw [mentions_of_form (h.form kind)]
  rfl

theorem Founded.reaches {st : Store} (h : st.Founded) {kind : Intrinsic} {u : TypeId}
    (hu : st.Reaches kind.id u) : u = kind.id := by
  refine hu.inside (X := (· = kind.id)) (fun t ht c hc => ?_) rfl
  rw [ht, h.mentions (TypeId.isIntrinsic_iff.mpr ⟨kind, rfl⟩)] at hc
  simp at hc

theorem Founded.inferFree {st : Store} (h : st.Founded) (kind : Intrinsic) :
    st.InferFree kind.id := by
  intro u hu name
  simp [h.reaches hu, h.form]

theorem Founded.restFree {st : Store} (h : st.Founded) (kind : Intrinsic) :
    st.RestFree kind.id := by
  intro u hu f hf slot hm
  rw [h.reaches hu, h.form] at hf
  cases hf
  simp [Form.slots] at hm

theorem lt_size_of_lookup {st : Store} {t : TypeId} (h : (st.lookup t).isSome) : t < st.size := by
  refine Nat.lt_of_not_le fun hn => ?_
  have hnone : st.cells[t]? = none := List.getElem?_eq_none hn
  simp [Store.lookup, hnone] at h

def Followed (st : Store) (t : TypeId) : Prop := t.isIntrinsic = false ∧ (st.lookup t).isSome

theorem isOpen_iff {st : Store} {found : List TypeId} {t : TypeId} :
    st.isOpen found t = true ↔ st.Followed t ∧ t ∉ found := by
  simp [isOpen, Followed]

section Discover

variable {st : Store} {enqueue : List TypeId → List TypeId → List TypeId} {room : Nat}
variable {waiting found : List TypeId}

/-- One step of a search: either nothing that waits is open, or the first that is gets found. -/
theorem discover_cases (st : Store) (enqueue : List TypeId → List TypeId → List TypeId) (room : Nat)
    (waiting found : List TypeId) :
    (∀ t ∈ waiting, ¬ st.isOpen found t) ∧ st.discover enqueue (room + 1) waiting found = [] ∨
      ∃ skipped t rest, waiting = skipped ++ t :: rest ∧ (∀ u ∈ skipped, ¬ st.isOpen found u) ∧
        st.isOpen found t ∧ st.discover enqueue (room + 1) waiting found =
          t :: st.discover enqueue room (enqueue (st.mentions t) rest) (t :: found) := by
  have hsplit := List.takeWhile_append_dropWhile (p := fun t => !st.isOpen found t) (l := waiting)
  rw [discover]
  cases hd : waiting.dropWhile (fun t => !st.isOpen found t) with
  | nil =>
    refine .inl ⟨fun t ht => ?_, rfl⟩
    simpa using List.dropWhile_eq_nil_iff.mp hd t ht
  | cons t rest =>
    have hopen := List.head?_dropWhile_not (fun t => !st.isOpen found t) waiting
    rw [hd] at hsplit hopen
    refine .inr ⟨_, t, rest, hsplit.symm, fun u hu => ?_, by simpa using hopen, rfl⟩
    simpa using List.mem_takeWhile_imp hu

variable (joins : ∀ mentioned rest t, t ∈ enqueue mentioned rest ↔ t ∈ mentioned ∨ t ∈ rest)

include joins

/-- A search only finds what can be reached. -/
theorem discover_sound {u : TypeId} (h : u ∈ st.discover enqueue room waiting found) :
    st.Followed u ∧ ∃ t ∈ waiting, st.Reaches t u := by
  induction room generalizing waiting found with
  | zero => simp [discover] at h
  | succ room ih =>
    rcases discover_cases st enqueue room waiting found with ⟨_, he⟩ | ⟨ws, t, rest, hw, _, ho, he⟩
    · simp [he] at h
    · rw [he] at h
      rcases List.mem_cons.mp h with rfl | h
      · exact ⟨(isOpen_iff.mp ho).1, u, by simp [hw], .refl⟩
      · obtain ⟨hf, x, hx, hr⟩ := ih h
        rcases (joins _ _ _).mp hx with hx | hx
        · exact ⟨hf, t, by simp [hw], .head hx hr⟩
        · exact ⟨hf, x, by simp [hw, hx], hr⟩

/-- As long as there is room for every cell that is not found yet, a search misses nothing that is
waiting and nothing that is mentioned by what it finds. -/
theorem discover_closed (waiting : List TypeId) (hroom : st.size ≤ room + found.length)
    (hnodup : found.Nodup) (hfound : ∀ t ∈ found, t < st.size) :
    (∀ t ∈ waiting, st.Followed t → t ∈ found ∨ t ∈ st.discover enqueue room waiting found) ∧
      ∀ t ∈ st.discover enqueue room waiting found, ∀ c ∈ st.mentions t, st.Followed c →
        c ∈ found ∨ c ∈ st.discover enqueue room waiting found := by
  induction room generalizing waiting found with
  | zero =>
    -- every cell is found already, or there would be more of them than there are
    refine ⟨fun t _ ht => .inl (Decidable.byContradiction fun hn => ?_), by simp [discover]⟩
    have hsub : (t :: found) ⊆ List.range st.size := by
      intro x hx
      rcases List.mem_cons.mp hx with rfl | hx
      · exact List.mem_range.mpr (lt_size_of_lookup ht.2)
      · exact List.mem_range.mpr (hfound x hx)
    have hlen := ((List.nodup_cons.mpr ⟨hn, hnodup⟩).subperm hsub).length_le
    simp only [List.length_cons, List.length_range] at hlen
    omega
  | succ room ih =>
    rcases discover_cases st enqueue room waiting found
      with ⟨hn, he⟩ | ⟨ws, t, rest, hw, hs, ho, he⟩
    · rw [he]
      refine ⟨fun u hu hf => .inl (Decidable.byContradiction fun hm => ?_), by simp⟩
      exact hn u hu (isOpen_iff.mpr ⟨hf, hm⟩)
    · obtain ⟨hft, hnew⟩ := isOpen_iff.mp ho
      have hlt : t < st.size := lt_size_of_lookup hft.2
      obtain ⟨hwait, hment⟩ := ih (enqueue (st.mentions t) rest)
        (by rw [List.length_cons]; omega) (List.nodup_cons.mpr ⟨hnew, hnodup⟩)
        (fun x hx => by rcases List.mem_cons.mp hx with rfl | hx <;> [exact hlt; exact hfound x hx])
      rw [he]
      have move {u : TypeId} (h : u ∈ t :: found ∨
          u ∈ st.discover enqueue room (enqueue (st.mentions t) rest) (t :: found)) :
          u ∈ found ∨
            u ∈ t :: st.discover enqueue room (enqueue (st.mentions t) rest) (t :: found) := by
        rcases h with h | h
        · rcases List.mem_cons.mp h with rfl | h
          · exact .inr (by simp)
          · exact .inl h
        · exact .inr (by simp [h])
      constructor
      · intro u hu hf
        rw [hw, List.mem_append, List.mem_cons] at hu
        rcases hu with hu | rfl | hu
        · refine .inl (Decidable.byContradiction fun hm => hs u hu (isOpen_iff.mpr ⟨hf, hm⟩))
        · exact .inr (by simp)
        · exact move (hwait u ((joins _ _ _).mpr (.inr hu)) hf)
      · intro x hx c hc hf
        rcases List.mem_cons.mp hx with rfl | hx
        · exact move (hwait c ((joins _ _ _).mpr (.inl hc)) hf)
        · exact move (hment x hx c hc hf)

end Discover

/-- The search from a type finds exactly the types worth following that can be reached from it. -/
theorem mem_reachable {st : Store} (founded : st.Founded) {t u : TypeId} :
    u ∈ st.reachable t ↔ st.Followed u ∧ st.Reaches t u := by
  have joins : ∀ (mentioned rest : List TypeId) x,
      x ∈ mentioned.reverse ++ rest ↔ x ∈ mentioned ∨ x ∈ rest := by simp
  constructor
  · intro h
    obtain ⟨hf, x, hx, hr⟩ := discover_sound joins h
    obtain rfl := List.mem_singleton.mp hx
    exact ⟨hf, hr⟩
  · rintro ⟨hf, hr⟩
    obtain ⟨hwait, hment⟩ := discover_closed joins [t]
      (show st.size ≤ st.size + ([] : List TypeId).length from Nat.le_refl _) .nil nofun
    have closed : ∀ x, (st.Followed x → x ∈ st.reachable t) →
        ∀ c ∈ st.mentions x, st.Followed c → c ∈ st.reachable t := by
      intro x hx c hc hfc
      have hfx : st.Followed x := by
        refine ⟨?_, ?_⟩
        · cases hi : TypeId.isIntrinsic x with
          | false => rfl
          | true => simp [founded.mentions hi] at hc
        · unfold Store.mentions at hc
          split at hc
          · rename_i hl
            simp [hl]
          · simp at hc
      exact (hment x (hx hfx) c hc hfc).resolve_left (by simp)
    exact hr.inside closed (fun h => (hwait t (by simp) h).resolve_left (by simp)) hf

/-- A test that no intrinsic type passes is passed by a reachable type exactly when the search
says so. -/
theorem reaches_iff {st : Store} (founded : st.Founded) {test : Node → Bool}
    (htest : ∀ kind, test (.intrinsic kind) = false) {t : TypeId} :
    st.reaches test t = true ↔ ∃ u node, st.Reaches t u ∧ st.lookup u = some node ∧ test node := by
  simp only [reaches, List.any_eq_true, mem_reachable founded, Option.any_eq_true]
  constructor
  · rintro ⟨u, ⟨_, hr⟩, node, hn, ht⟩
    exact ⟨u, node, hr, hn, ht⟩
  · rintro ⟨u, node, hr, hn, ht⟩
    refine ⟨u, ⟨⟨?_, by simp [hn]⟩, hr⟩, node, hn, ht⟩
    cases hi : TypeId.isIntrinsic u with
    | false => rfl
    | true =>
      obtain ⟨kind, rfl⟩ := TypeId.isIntrinsic_iff.mp hi
      cases hn.symm.trans (founded.lookup kind)
      simp [htest] at ht

/-- A scan finds no infer variable exactly if none can be reached. -/
theorem containsInfer_eq_false {st : Store} (founded : st.Founded) {t : TypeId} :
    st.containsInfer t = false ↔ st.InferFree t := by
  rw [← Bool.not_eq_true, containsInfer, reaches_iff founded fun _ => rfl]
  constructor
  · intro h u hu name hf
    obtain ⟨node, hn, hform⟩ := lookup_of_form hf
    refine h ⟨u, node, hu, hn, ?_⟩
    cases node <;> simp_all [form]
  · rintro h ⟨u, node, hu, hn, ht⟩
    cases node with
    | infer name => exact h u hu name (form_of_lookup hn)
    | _ => simp at ht

end Store

end TypeCalculus
