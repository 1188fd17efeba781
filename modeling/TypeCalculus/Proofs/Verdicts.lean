import TypeCalculus.Proofs.Completeness
import TypeCalculus.Proofs.Operations

namespace TypeCalculus

namespace Matcher

open Store (kind_concrete)

def Shown (subject pattern : TypeId) (s : State) : Prop :=
  ∀ st', s.2.Extends st' → st'.WellFormed → st'.Within (underWay s) subject pattern

theorem stable_shown (subject pattern : TypeId) :
    Stable (Walk (Keeps Store.Concrete)) (Shown subject pattern) := by
  intro s s' hs h st' he hw
  have hway : underWay s' = underWay s := by
    unfold underWay
    rw [hs.guard.visiting]
  rw [hway]
  exact h st' (hs.kept.later.grown.trans he) hw

theorem Shown.of_unfolds {subject pattern : TypeId} {s : State}
    (h : ∀ st', s.2.Extends st' → st'.WellFormed →
      st'.Unfolds (st'.Within (underWay s)) subject pattern) : Shown subject pattern s :=
  fun st' he hw => .of_unfolds (h st' he hw)

/-- A question under way is assumed in every extension at once. -/
theorem rules_shown : Rules (Keeps Store.Concrete) (Held Store.Concrete) (fun _ => True)
    Concrete Concrete (fun goal => Shown goal.subject goal.pattern) (fun _ _ => False)
    (fun _ a b => Shown b a) (fun _ _ _ _ => False) where
  ground := rules_complete.ground
  known := rules_complete.known
  blind _ h := { h with }
  stable_yes goal := stable_shown goal.subject goal.pattern
  stable_asked _ _ _ _ := id
  stable_yes_into _ a b := stable_shown b a
  stable_asked_into _ _ _ _ _ _ := id
  same _ h := .of_unfolds fun _ _ _ => .inl h
  undefined _ _ _ h := h
  bound hm hf := absurd hf (hm.pattern.2.inferFree _ .refl _)
  extreme hm hd h := .of_unfolds fun st' he _ =>
    .inr ⟨hm.pattern.1.form_extends he hm.pattern.2.valid ▸ hd, h.imp_right .inl⟩
  any {s goal} hm hd h := by
    apply (leads_bindAny kind_concrete hm.known hm.pattern.2.valid).mono
    intro _ s' hs' _
    have hlater := hs'.kept.later
    have hform := hm.pattern.1.form_extends hlater.grown hm.pattern.2.valid
    apply Shown.of_unfolds
    intro st' he _
    have hlt := Nat.lt_of_lt_of_le hm.pattern.2.valid hlater.grown.size
    rw [← hform, ← (hlater.sound hm.pattern.1).form_extends he hlt] at hd
    exact .inr ⟨hd, .inr (.inr (.inl h))⟩
  met _ h st' _ _ := .assumed ⟨_, h⟩
  close {s s' goal g} hm _ hi hw hc := by
    intro st' he hst'
    have hlater := hw.kept.later
    have hsound := hlater.sound hm.subject.1
    have hsubject : goal.subject < s'.2.size :=
      Nat.lt_of_lt_of_le hm.subject.2.valid hlater.grown.size
    have hpattern : goal.pattern < s'.2.size :=
      Nat.lt_of_lt_of_le hm.pattern.2.valid hlater.grown.size
    have hform := hsound.form_extends he hpattern
    have hdrop := underWay_leave hi hw
    refine .discharge (.inr ⟨hform ▸ hc.defined, .inr (.inr (.inr ?_))⟩)
    exact hc.transfer (hsound.sameParts he hsubject) (fun a b _ h => (h st' he hst').mono hdrop)
      (fun a b _ h => (h st' he hst').mono hdrop) hform
  unfold _ _ _ _ _ _ h := h.elim
  into v hj hask := asksInto_swapped v hj (fun _ _ _ _ _ => id) (hask v.flip trivial)

/-- A subject that matches a pattern is assignable to it from then on. -/
theorem run_sound {st : Store} (hw : st.WellFormed) {subject pattern : TypeId}
    (hs : st.Concrete subject) (hp : st.Concrete pattern) (limits : Limits) :
    let r := (run limits subject pattern).run st
    r.1.1 = true → ∀ st', r.2.Extends st' → st'.WellFormed → st'.Assignable subject pattern := by
  obtain ⟨hwalk, hyes, _⟩ := rules_shown.decides_run limits
    ⟨held_start hw limits, trivial, ⟨hw, hs⟩, ⟨hw, hp⟩⟩
  intro r h st' he hst'
  apply ((hyes h st' he hst').mono fun a b hab => ?_).assignable
  obtain ⟨v, hv⟩ := hab
  rw [hwalk.guard.visiting] at hv
  cases hv

/-- Unless a limit is hit, matching decides assignability in every extension of the store it
leaves. -/
theorem run_judges {st : Store} (hg : Discipline.Good .typed st) {subject pattern : TypeId}
    (hs : st.Concrete subject) (hp : st.Concrete pattern) (limits : Limits) {st' : Store} :
    let r := (run limits subject pattern).run st
    r.1.2.guard.overrun = false → r.2.Extends st' → st'.WellFormed →
      (r.1.1 = true ↔ st'.Assignable subject pattern) := by
  intro r ho he hw
  have hfit {t : TypeId} (h : st.Concrete t) : Discipline.Fit .typed st t :=
    ⟨fun _ => h.valid, fun h => by cases h⟩
  have hruns := runs_run (r := (Discipline.rules .typed).toBuildRules) hg (hfit hs) (hfit hp) limits
  have hgrown : st.Extends r.2 := hruns.leads.1.grown
  refine ⟨fun h => run_sound hg.wellFormed hs hp limits h st' he hw, fun h => ?_⟩
  have hlater {t : TypeId} (ht : st.Concrete t) : st'.Concrete t :=
    kind_concrete.later hg.wellFormed (hgrown.trans he) ht
  have hagain : (run limits subject pattern).run st' = (r.1, st') :=
    hruns.echo st' ⟨(fun h => by cases h), he.widens, fun _ => he⟩
  have hcomplete := run_complete hw (hlater hs) (hlater hp) h limits
  rw [hagain] at hcomplete
  exact hcomplete.resolve_right fun h => by simp [ho] at h

end Matcher

theorem run_isAssignable (subject pattern : TypeId) (st : Store) :
    (isAssignable subject pattern).run st =
      let r := (Matcher.run .matching subject pattern).run st
      (r.1.1, r.2) := by
  have hrun : (isAssignable subject pattern).run st =
      let r := (Matcher.run .matching subject pattern).run st
      ((if r.1.1 then some r.1.2.bindings else none).isSome, r.2) := rfl
  rw [hrun]
  rcases (Matcher.run .matching subject pattern).run st with ⟨⟨_ | _, _⟩, _⟩ <;> rfl

namespace Store

variable {st st' : Store}

def Supplemented (st st' : Store) : Prop :=
  ∃ ops, Operation.AllAccepted .typed st ops ∧ (∀ op ∈ ops, op.target? = none) ∧
    Operation.afterAll st ops = st'

theorem Supplemented.refl (st : Store) : st.Supplemented st := ⟨[], trivial, by simp, rfl⟩

theorem Supplemented.of_eq (h : st = st') : st.Supplemented st' := h ▸ .refl st

/-- What users add meanwhile extends the store by primitive actions. -/
theorem Supplemented.evolves (h : st.Supplemented st') (hg : Discipline.Good .typed st) :
    Discipline.Evolves .typed st st' := by
  obtain ⟨ops, haccepted, htarget, rfl⟩ := h
  induction ops generalizing st with
  | nil => exact Evolution.refl st
  | cons op ops ih =>
    have hop := Operation.evolves (fun h => by cases h) hg haccepted.1
      (htarget op List.mem_cons_self)
    exact Evolution.trans hop
      (ih (hop.good hg) haccepted.2 fun other hm => htarget other (List.mem_cons_of_mem op hm))

/-- Between the two stores it was asked whether the one type is assignable to the other, and no
limit was hit on the way to the answer. -/
def Answered (st st' : Store) (subject pattern : TypeId) (answer : Bool) : Prop :=
  ∃ asked, st.Supplemented asked ∧
    ((Matcher.run .matching subject pattern).run asked).1.2.guard.overrun = false ∧
    ((isAssignable subject pattern).run asked).1 = answer ∧
    ((isAssignable subject pattern).run asked).2.Supplemented st'

section Answered

variable {subject pattern : TypeId} {answer : Bool} (h : st.Answered st' subject pattern answer)
  (hg : Discipline.Good .typed st) (hs : st.Concrete subject) (hp : st.Concrete pattern)

include h hg hs hp

theorem Answered.evolves : Discipline.Evolves .typed st st' := by
  obtain ⟨asked, hbefore, _, _, hafter⟩ := h
  rw [run_isAssignable] at hafter
  have hev := hbefore.evolves hg
  have hfit {t : TypeId} (ht : st.Concrete t) : Discipline.Fit .typed asked t :=
    ⟨fun _ => Nat.lt_of_lt_of_le ht.valid hev.grown.size, fun h => by cases h⟩
  have hwalk := (Matcher.runs_run (r := (Discipline.rules .typed).toBuildRules) (hev.good hg)
    (hfit hs) (hfit hp) .matching).leads.1
  exact Evolution.trans hev (Evolution.trans hwalk (hafter.evolves (hwalk.good (hev.good hg))))

/-- What was answered is so in the later store. -/
theorem Answered.iff_assignable : answer = true ↔ st'.Assignable subject pattern := by
  have hend := h.evolves hg hs hp
  obtain ⟨asked, hbefore, ho, rfl, hafter⟩ := h
  rw [run_isAssignable] at hafter ⊢
  have hev := hbefore.evolves hg
  have hlater {t : TypeId} (ht : st.Concrete t) : asked.Concrete t :=
    kind_concrete.later hg.wellFormed hev.grown ht
  have hfit {t : TypeId} (ht : st.Concrete t) : Discipline.Fit .typed asked t :=
    ⟨fun _ => (hlater ht).valid, fun h => by cases h⟩
  have hwalk := (Matcher.runs_run (r := (Discipline.rules .typed).toBuildRules) (hev.good hg)
    (hfit hs) (hfit hp) .matching).leads.1
  exact Matcher.run_judges (hev.good hg) (hlater hs) (hlater hp) .matching ho
    (hafter.evolves (hwalk.good (hev.good hg))).grown (hend.good hg).wellFormed

end Answered

end Store

end TypeCalculus
