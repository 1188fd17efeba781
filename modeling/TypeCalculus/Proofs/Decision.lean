import TypeCalculus.Proofs.Extension
import TypeCalculus.Proofs.MatchWalk

namespace TypeCalculus

namespace Store

/-- Every store that can be built: from the store of intrinsic types, by any interning, reserving
and defining whatsoever. -/
inductive Reached : Store → Prop
  | initial : Reached .initial
  | intern {st : Store} (node : Node) : Reached st → Reached ((intern node).run st).2
  | internList {st : Store} (members : List TypeId) : Reached st →
    Reached ((internList members).run st).2
  | internSlots {st : Store} (slots : List Slot) : Reached st →
    Reached ((internSlots slots).run st).2
  | internShape {st : Store} (shape : Shape) : Reached st → Reached ((internShape shape).run st).2
  | internSignature {st : Store} (signature : Signature) : Reached st →
    Reached ((internSignature signature).run st).2
  | internConditional {st : Store} (conditional : Conditional) : Reached st →
    Reached ((internConditional conditional).run st).2
  | internMapping {st : Store} (mapping : Mapping) : Reached st →
    Reached ((internMapping mapping).run st).2
  | reserve {st : Store} : Reached st → Reached (reserve.run st).2
  | define {st : Store} (t : TypeId) (body : Node) : Reached st →
    Reached ((define t body).run st).2

/-- A property that extensions keep, and bodies given to placeholders, is one of every store. -/
theorem Reached.keeps {P : Store → Prop} {st : Store} (h : st.Reached) (initial : P .initial)
    (extended : ∀ {st st' : Store}, st.Extends st' → P st → P st')
    (filled : ∀ {st : Store} {t : TypeId} (body : Node), st.cells[t]? = some (.reserved none) →
      P st → P { st with cells := st.cells.set t (.reserved (some body)) }) : P st := by
  induction h with
  | initial => exact initial
  | intern node _ ih => exact extended (extends_intern node _) ih
  | internList members _ ih => exact extended (extends_internList members _) ih
  | internSlots slots _ ih => exact extended (extends_internSlots slots _) ih
  | internShape shape _ ih => exact extended (extends_internShape shape _) ih
  | internSignature signature _ ih => exact extended (extends_internSignature signature _) ih
  | internConditional conditional _ ih =>
    exact extended (extends_internConditional conditional _) ih
  | internMapping mapping _ ih => exact extended (extends_internMapping mapping _) ih
  | reserve _ ih => exact extended (extends_reserve _) ih
  | @define st t body _ ih =>
    rcases run_define t body st with ⟨hc, hr⟩ | ⟨_, error, hr⟩
    · rw [hr]
      exact filled body hc ih
    · rw [hr]
      exact ih

theorem Reached.founded {st : Store} (h : st.Reached) : st.Founded := by
  apply h.keeps (P := Founded)
  · exact fun kind => by cases kind <;> rfl
  · exact fun he => he.founded
  · intro st t body hc hf kind
    -- an interned cell is not a placeholder, so no definition touches it
    have hne : t ≠ kind.id := by
      rintro rfl
      simp [hf kind] at hc
    rw [List.getElem?_set_ne hne]
    exact hf kind

/-- Assignable, if the pairs in `V` may be taken for granted below the first level. -/
def Within (st : Store) (V : TypeId → TypeId → Prop) (s p : TypeId) : Prop :=
  ∃ R : TypeId → TypeId → Prop,
    (∀ s p, R s p → st.Unfolds (fun a b => R a b ∨ V a b) s p) ∧ (R s p ∨ V s p)

namespace Within

variable {st : Store} {V : TypeId → TypeId → Prop} {s p : TypeId}

theorem mono {V' : TypeId → TypeId → Prop} (h : st.Within V s p) (hV : ∀ a b, V a b → V' a b) :
    st.Within V' s p := by
  obtain ⟨R, hR, h⟩ := h
  exact ⟨R, fun a b hab => (hR a b hab).mono fun c d => .imp_right (hV c d), h.imp_right (hV s p)⟩

theorem assumed (h : V s p) : st.Within V s p := ⟨fun _ _ => False, fun _ _ h => h.elim, .inr h⟩

/-- What unfolds to a pair that may itself be taken for granted needs no such assumption. -/
theorem discharge (h : st.Unfolds (st.Within fun a b => a = s ∧ b = p ∨ V a b) s p) :
    st.Within V s p := by
  refine ⟨st.Unfolds (st.Within fun a b => a = s ∧ b = p ∨ V a b), fun a b hab => ?_, .inl h⟩
  refine hab.mono fun a b hab => ?_
  obtain ⟨R, hR, hab | hab | hab⟩ := hab
  · exact .inl ((hR a b hab).mono fun c d hcd => ⟨R, hR, hcd⟩)
  · obtain ⟨rfl, rfl⟩ := hab
    exact .inl h
  · exact .inr hab

/-- What unfolds to pairs that hold if others are taken for granted holds in the same way. -/
theorem of_unfolds (h : st.Unfolds (st.Within V) s p) : st.Within V s p :=
  discharge (h.mono fun _ _ hab => hab.mono fun _ _ => .inr)

/-- With nothing taken for granted this is assignability. -/
theorem assignable (h : st.Within (fun _ _ => False) s p) : st.Assignable s p := by
  obtain ⟨R, hR, h⟩ := h
  exact ⟨R, fun a b hab => (hR a b hab).mono fun _ _ h => h.resolve_right id, h.resolve_right id⟩

end Within

end Store

namespace Matcher

def Scanned (s : State) : Prop :=
  ∀ t answer, s.1.scanned.get? t = some answer → answer = s.2.containsInfer t

theorem leads_containsInfer {F : State → State → Prop} [Evolution F] {s : State} {t : TypeId}
    (hs : Scanned s)
    (hF : F s ({ s.1 with scanned := s.1.scanned.insert t (s.2.containsInfer t) }, s.2)) :
    Leads F (containsInfer t) s fun answer _ => answer = s.2.containsInfer t := by
  unfold containsInfer
  refine leads_get ?_
  split
  · rename_i answer h
    exact Leads.pure (hs t answer h)
  · refine leads_getStore (Leads.bind (leads_modify (Q := fun _ _ => True) hF trivial)
      fun _ _ _ _ => ?_)
    exact Leads.pure rfl

theorem Scanned.insert {s : State} (hs : Scanned s) (t : TypeId) :
    Scanned ({ s.1 with scanned := s.1.scanned.insert t (s.2.containsInfer t) }, s.2) := by
  intro u answer h
  rw [Dict.get?_insert] at h
  split at h
  · rename_i he
    cases h
    rw [he]
  · exact hs u answer h

structure Still (s s' : State) : Prop where
  store : s'.2 = s.2
  scanned : Scanned s → Scanned s'

instance : Upkeep Still where
  refl _ := ⟨rfl, id⟩
  trans h h' := ⟨h'.store.trans h.store, fun hs => h'.scanned (h.scanned hs)⟩
  restore h := ⟨h.store, h.scanned⟩
  blind _ _ h := ⟨h.store, h.scanned⟩

def underWay (s : State) (a b : TypeId) : Prop := ∃ v, ⟨a, b, v⟩ ∈ s.1.guard.visiting

theorem stable_within {K : State → State → Prop} {st : Store} {a b : TypeId} :
    Stable (Walk K) fun s => st.Within (underWay s) a b := by
  intro s s' hs h
  unfold underWay
  rw [hs.guard.visiting]
  exact h

/-- What was under way during a visit is the visited question itself, or still under way after
it. -/
theorem underWay_leave {K : State → State → Prop} {s s' : State} {goal : Goal} {g : Guard Goal}
    (hi : Guard.Inside goal s.1.guard g) (hw : Walk K ({ s.1 with guard := g }, s.2) s')
    (a b : TypeId) (h : underWay s' a b) :
    a = goal.subject ∧ b = goal.pattern ∨
      underWay ({ s'.1 with guard := s'.1.guard.leave goal }, s'.2) a b := by
  obtain ⟨v, hv⟩ := h
  rw [hw.guard.visiting, hi.visiting] at hv
  rcases List.mem_cons.mp hv with rfl | hv
  · exact .inl ⟨rfl, rfl⟩
  · exact .inr ⟨v, (hi.leave hw.guard).visiting ▸ hv⟩

section Decision

variable {st : Store}

def Plain (st st' : Store) (t : TypeId) : Prop := st' = st ∧ st.InferFree t ∧ st.RestFree t

theorem ground_plain (founded : st.Founded) : Ground (Walk Still) (Plain st) (Plain st) where
  subject_kept h ht := by
    obtain ⟨rfl, hfree⟩ := ht
    exact ⟨⟨h.kept.store, hfree⟩, by rw [h.kept.store]⟩
  pattern_kept h ht := by
    obtain ⟨rfl, hfree⟩ := ht
    exact ⟨⟨h.kept.store, hfree⟩, by rw [h.kept.store]⟩
  subject_child ht hc := by
    obtain ⟨rfl, hi, hr⟩ := ht
    exact ⟨rfl, hi.child hc, hr.child hc⟩
  pattern_child ht hc := by
    obtain ⟨rfl, hi, hr⟩ := ht
    exact ⟨rfl, hi.child hc, hr.child hc⟩
  unknown ht := by
    obtain ⟨rfl, _⟩ := ht
    exact ⟨rfl, founded.inferFree .unknown, founded.restFree .unknown⟩
  element {s t f slot} ht hf hm := by
    obtain ⟨rfl, hi, hr⟩ := ht
    have hfixed : slot.rest = false := hr t .refl f hf slot hm
    have hrun : (elementType slot).run s.2 = (slot.type, s.2) := s.2.element_of_fixed hfixed
    have hc : slot.type ∈ s.2.mentions t := Store.mentions_of_form hf ▸ Form.slot_mentioned hm
    refine leads_lift ?_ ?_
    · rw [hrun]
      exact Evolution.refl s
    · rw [hrun]
      exact ⟨⟨rfl, hi.child hc, hr.child hc⟩, hrun⟩
  element_kept h _ _ _ he := h.kept.store ▸ he
  remainder n ht hf hp hg hm hrest := by
    obtain ⟨rfl, _, hr⟩ := hp
    simp [hr _ .refl _ hg _ hm] at hrest
  remainder_kept h _ _ he := h.kept.store ▸ he

/-- The scan finds no variable, so the two sides change places. -/
theorem asks_swapped (founded : st.Founded) {ask : Goal → MatchM Bool} {s : State}
    (hj : s.2 = st ∧ Scanned s) (v : Variance) {A B : TypeId → TypeId → State → Prop}
    (hB : ∀ a b, Stable (Walk Still) (B a b))
    (hask : Asks (Walk Still) (Plain st) (Plain st) s (fun a b => ask ⟨a, b, v.flip⟩) A B) :
    Asks (Walk Still) (Plain st) (Plain st) s (fun a b => askParameter ask a b v)
      (fun a b => A b a) (fun a b => B b a) := by
  obtain ⟨rfl, hscan⟩ := hj
  intro s' hs' a b ha hb
  have hscan' := hs'.kept.scanned hscan
  have hfree : s'.2.containsInfer b = false := by
    rw [hb.1]
    exact (Store.containsInfer_eq_false founded).mpr hb.2.1
  refine Decides.after (leads_containsInfer hscan' ⟨.refl _, rfl, fun h => h.insert b⟩)
    (fun answer s₁ h₁ he => ?_) (hB b a)
  rw [he, hfree]
  exact hask s₁ (Evolution.trans hs' h₁) b a ⟨h₁.kept.store.trans hb.1, hb.2⟩
    ⟨h₁.kept.store.trans ha.1, ha.2⟩

/-- While a question is under way it may be taken for granted, and closing it discharges the
assumption. -/
theorem rules_assignable (founded : st.Founded) :
    Rules Still (fun s => s.2 = st ∧ Scanned s) (fun _ => True) (Plain st) (Plain st)
      (fun goal s => st.Within (underWay s) goal.subject goal.pattern)
      (fun goal _ => st.Assignable goal.subject goal.pattern)
      (fun _ a b s => st.Within (underWay s) b a) (fun _ a b _ => st.Assignable b a) where
  ground := ground_plain founded
  known _ _ h hj := ⟨h.kept.store.trans hj.1, h.kept.scanned hj.2⟩
  blind _ h := h
  stable_yes _ := stable_within
  stable_asked _ _ _ _ := id
  stable_yes_into _ _ _ := stable_within
  stable_asked_into _ _ _ _ _ _ := id
  same _ h := .of_unfolds (.inl h)
  undefined hm hne hn h := by
    rcases h.unfold with h | ⟨h, _⟩
    · exact hne h
    · simp [← hm.known.1, hn] at h
  bound hm hf := by
    obtain ⟨rfl, hi, _⟩ := hm.pattern
    exact absurd hf (hi _ .refl _)
  extreme hm hd h := .of_unfolds (.inr ⟨hm.known.1 ▸ hd, h.imp_right .inl⟩)
  any hm hd h := by
    obtain ⟨rfl, hscan⟩ := hm.known
    refine Leads.bind (leads_containsInfer hscan ⟨.refl _, rfl, fun h => h.insert _⟩)
      fun answer s' hs' he => ?_
    rw [he, (Store.containsInfer_eq_false founded).mpr hm.pattern.2.1]
    exact Leads.pure (.of_unfolds (.inr ⟨hd, .inr (.inr (.inl h))⟩))
  met _ h := .assumed ⟨_, h⟩
  close {s s' goal g} hm _ hi hw hc := by
    have hst : s'.2 = st := hw.kept.store.trans hm.known.1
    rw [hst] at hc
    refine .discharge (.inr ⟨hc.defined, .inr (.inr (.inr ?_))⟩)
    have hdrop := underWay_leave hi hw
    exact hc.transfer (.refl st _) (fun a b _ h => h.mono hdrop) (fun a b _ h => h.mono hdrop) rfl
  unfold hm hi hne htop hnever hany h := by
    rcases h.unfold with h | ⟨_, h | h | h | h⟩
    · exact absurd h hne
    · simp [htop] at h
    · exact absurd h hnever
    · exact absurd h hany
    · exact hm.known.1 ▸ h
  into v hj hask _ _ _ _ _ := asks_swapped founded hj v (fun _ _ _ _ _ => id) (hask v.flip trivial)

/-- Matching decides assignability, the greatest relation that implies its own unfolding. Whatever
the limits, a yes is never wrong; and a no is right unless a limit was hit. -/
theorem run_decides_assignable {st : Store} (reached : st.Reached) {s p : TypeId}
    (hs : st.InferFree s) (hs' : st.RestFree s) (hp : st.InferFree p) (hp' : st.RestFree p)
    (limits : Limits) :
    let r := ((run limits s p).run st).1
    (r.1 = true → st.Assignable s p) ∧
      (st.Assignable s p → r.2.guard.overrun = false → r.1 = true) := by
  have founded := reached.founded
  have hstart : Scanned (start limits, st) := fun t answer h => by cases h
  obtain ⟨hw, hyes, hno⟩ := (rules_assignable founded).decides_run limits
    ⟨⟨rfl, hstart⟩, trivial, ⟨rfl, hs, hs'⟩, ⟨rfl, hp, hp'⟩⟩
  refine ⟨fun h => ?_, fun ha ho => ?_⟩
  · refine ((hyes h).mono fun a b hab => ?_).assignable
    obtain ⟨v, hv⟩ := hab
    rw [hw.guard.visiting] at hv
    cases hv
  · refine (hno ha).resolve_right fun h => ?_
    simp [ho] at h

/-- `A = { tail: A }` at place 12 and `B = { tail: null | B }` at place 13. -/
def endlessLists : Store :=
  ((do
    let a ← Store.reserve
    let b ← Store.reserve
    let shape ← Store.internShape { fields := [{ name := "tail", type := a }] }
    let _ ← Store.define a (.object shape)
    let members ← Store.internList [.null, b]
    let tail ← Store.intern (.union members)
    let shape ← Store.internShape { fields := [{ name := "tail", type := tail }] }
    let _ ← Store.define b (.object shape)
    : StoreM Unit).run .initial).2

theorem run_decides_assignable_endlessLists :
    endlessLists.Reached ∧ endlessLists.InferFree 12 ∧ endlessLists.RestFree 12 ∧
      endlessLists.InferFree 13 ∧ endlessLists.RestFree 13 ∧ endlessLists.Assignable 12 13 := by
  have reached : endlessLists.Reached :=
    .define 13 (.object 1) <| .internShape ⟨[⟨"tail", 14, false, false⟩], none⟩ <|
      .intern (.union 1) <| .internList [.null, 13] <| .define 12 (.object 0) <|
      .internShape ⟨[⟨"tail", 12, false, false⟩], none⟩ <| .reserve <| .reserve .initial
  have inferFree (t : TypeId) (h : endlessLists.containsInfer t = false) :
      endlessLists.InferFree t := (Store.containsInfer_eq_false reached.founded).mp h
  have restFree (t : TypeId) (ht : t ∈ [TypeId.null, 12, 13, 14]) : endlessLists.RestFree t := by
    intro u hu f hf slot hm
    have hslots : ∀ u ∈ [TypeId.null, 12, 13, 14],
        ((endlessLists.form? u).map Form.slots).getD [] = [] := by decide
    have hu : u ∈ [TypeId.null, 12, 13, 14] := hu.inside (by decide) ht
    have hnone := hslots u hu
    simp only [hf, Option.map_some, Option.getD_some] at hnone
    simp [hnone] at hm
  have hs := inferFree 12 (by decide)
  have hp := inferFree 13 (by decide)
  have hs' := restFree 12 (by decide)
  have hp' := restFree 13 (by decide)
  exact ⟨reached, hs, hs', hp, hp', (run_decides_assignable reached hs hs' hp hp' .matching).1
    (by decide +kernel)⟩

end Decision

end Matcher

end TypeCalculus
