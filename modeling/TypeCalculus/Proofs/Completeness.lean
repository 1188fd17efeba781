import TypeCalculus.Proofs.MatchKinds
import TypeCalculus.Proofs.Unions

namespace TypeCalculus.Matcher

open Store (Later kind_concrete)

structure Holds (subject pattern : TypeId) (s : State) : Prop where
  sound : s.2.WellFormed
  subject_lt : subject < s.2.size
  pattern_lt : pattern < s.2.size
  assignable : s.2.Assignable subject pattern

abbrev Concrete (st : Store) (t : TypeId) : Prop := st.WellFormed ∧ st.Concrete t

theorem stable_holds (subject pattern : TypeId) :
    Stable (Walk (Keeps Store.Concrete)) (Holds subject pattern) := by
  intro s s' hs h
  have hlater := hs.kept.later
  exact ⟨hlater.sound h.sound, Nat.lt_of_lt_of_le h.subject_lt hlater.grown.size,
    Nat.lt_of_lt_of_le h.pattern_lt hlater.grown.size,
    h.assignable.later h.sound hlater.grown h.subject_lt h.pattern_lt⟩

/-- No variable is within reach of a concrete pattern, so in a parameter the two sides change
places. -/
theorem asksInto_swapped {ask : Goal → MatchM Bool} {s : State} (v : Variance)
    (hj : Held Store.Concrete s) {A B : TypeId → TypeId → State → Prop}
    (hB : ∀ a b, Stable (Walk (Keeps Store.Concrete)) (B a b))
    (hask : Asks (Walk (Keeps Store.Concrete)) Concrete Concrete s
      (fun a b => ask ⟨a, b, v.flip⟩) A B) :
    AsksInto (Walk (Keeps Store.Concrete)) Concrete Concrete s (fun a b => askParameter ask a b v)
      (fun a b => A b a) (fun a b => B b a) := by
  intro _ _ _ _ _ s' hs' a b ha hb
  refine Decides.after (leads_scan (hs'.kept.held hj) hb.2.valid)
    (fun answer s₁ h₁ he => ?_) (hB b a)
  have hlater := h₁.kept.later
  have hkept {t : TypeId} (h : Concrete s'.2 t) : Concrete s₁.2 t :=
    ⟨hlater.sound h.1, kind_concrete.later h.1 hlater.grown h.2⟩
  rw [he, (Store.containsInfer_eq_false hb.1.founded).mpr hb.2.inferFree]
  exact hask s₁ (Evolution.trans hs' h₁) b a (hkept hb) (hkept ha)

theorem held_start {st : Store} (hw : st.WellFormed) (limits : Limits) :
    Held Store.Concrete (start limits, st) :=
  ⟨hw, nofun, nofun, nofun⟩

/-- No clause loses an assignability: what the pair unfolds to is answered yes before it. -/
theorem rules_complete : Rules (Keeps Store.Concrete) (Held Store.Concrete) (fun _ => True)
    Concrete Concrete (fun _ _ => True) (fun goal => Holds goal.subject goal.pattern)
    (fun _ _ _ _ => True) (fun _ a b => Holds b a) where
  ground := ground_kinds (fun h => h.later) (Keeps.store kind_concrete) kind_concrete
    kind_concrete.toInherited
  known _ _ h := h.kept.held
  blind _ h := { h with }
  stable_yes _ _ _ _ := id
  stable_asked goal := stable_holds goal.subject goal.pattern
  stable_yes_into _ _ _ _ _ _ := id
  stable_asked_into _ a b := stable_holds b a
  same _ _ := trivial
  undefined _ hne hn h := by
    rcases h.assignable.unfold with h | ⟨h, _⟩
    · exact hne h
    · simp [hn] at h
  bound hm hf := absurd hf (hm.pattern.2.inferFree _ .refl _)
  extreme _ _ _ := trivial
  any hm _ _ := leads_bindAny kind_concrete hm.known hm.pattern.2.valid
  met _ _ := trivial
  close _ _ _ _ _ := trivial
  unfold {s goal g} hm hi hne htop hnever hany h := by
    rcases h.assignable.unfold with h | ⟨_, h | h | h | hc⟩
    · exact absurd h hne
    · simp [htop] at h
    · exact absurd h hnever
    · exact absurd h hany
    · have hvalid {a b : TypeId} (hab : s.2.Asked goal.subject goal.pattern a b) :
          a < s.2.size ∧ b < s.2.size :=
        hab.kinds h.sound Store.kind_valid Store.kind_valid.toInherited h.subject_lt h.pattern_lt
      exact hc.transfer (.refl _ _)
        (fun a b hab hr => ⟨h.sound, (hvalid hab).1, (hvalid hab).2, hr⟩)
        (fun a b hab hr => ⟨h.sound, (hvalid hab).2, (hvalid hab).1, hr⟩) rfl
  into v hj hask := asksInto_swapped v hj (fun a b => stable_holds a b) (hask v.flip trivial)

/-- A subject that is assignable to a pattern matches it, unless a limit is hit. -/
theorem run_complete {st : Store} (hw : st.WellFormed) {subject pattern : TypeId}
    (hs : st.Concrete subject) (hp : st.Concrete pattern) (h : st.Assignable subject pattern)
    (limits : Limits) :
    let r := ((run limits subject pattern).run st).1
    r.1 = true ∨ r.2.guard.overrun = true := by
  obtain ⟨_, _, hcomplete⟩ :=
    rules_complete.decides_run limits ⟨held_start hw limits, trivial, ⟨hw, hs⟩, ⟨hw, hp⟩⟩
  exact hcomplete ⟨hw, hs.valid, hp.valid, h⟩

end TypeCalculus.Matcher
