import TypeCalculus.Proofs.DeepSolutions
import TypeCalculus.Proofs.Distribution
import TypeCalculus.Proofs.MemberMapping
import TypeCalculus.Proofs.PlainRecursion

namespace TypeCalculus

namespace Mapping

@[mk_iff]
structure Deep (m : Mapping) : Prop where
  keys : m.keys = .all
  value : m.value = .deep

/-- The deep mapping with each modifier of the second mapping, or else that of the first. -/
def deepened (first second : Mapping) : Mapping where
  value := .deep
  optional := second.optional.or first.optional
  readonly := second.readonly.or first.readonly

theorem deep_deepened (first second : Mapping) : (first.deepened second).Deep := ⟨rfl, rfl⟩

/-- The modifiers of the one mapping are those of the two, one after the other. -/
theorem chains_deepened {first second : Mapping} (h : first.Deep) (h' : second.Deep) :
    first.Chains second (first.deepened second) where
  accepts _ := by rw [h.keys, h'.keys]; rfl
  keepsIndex := by rw [h.keys, h'.keys]; rfl
  all := ⟨fun _ => ⟨h.keys, h'.keys⟩, fun _ => rfl⟩
  optional flag := Modifier.apply_or _ _ flag
  readonly flag := Modifier.apply_or _ _ flag

end Mapping

theorem Discipline.Good.given {st : Store} (h : Good .typed st) : Good .given st where
  anchored _ := h.anchored fun h => by cases h
  linked _ := h.linked fun h => by cases h
  tidy h := by cases h

namespace Evaluator

section Solved

variable {st : Store} (ht : st.Tidy) (hs : st.Shared) (ha : st.Anchored)

include ht hs ha

theorem Gathers.unites {P : TypeId → TypeId → Prop} {v b : TypeId} (h : Gathers st P v b) :
    Unites st P v b := by
  cases h with
  | none hn =>
    refine ⟨[], ?_, rfl⟩
    rw [hn]
    exact .nil
  | one hx hb =>
    refine ⟨[b], ?_, Store.mkUnion_self ht hs ha b⟩
    rw [hx]
    exact .cons hb .nil
  | many _ hbs hb => exact ⟨_, hbs, hb⟩

variable {A : Task → TypeId → Prop} {limits : Limits} (hA : Solved st A limits)
  {id : MappingId} {m : Mapping}
  (hid : st.mappings.get? id = some m) (hm : m.Deep)

include hA hid hm

theorem Solved.coherent : Coherent st m fun n a => A ⟨.mapping id, n⟩ a := by
  have hmapping : st.mapping id = m := by
    rw [Store.mapping, hid]
    rfl
  intro n a hn hna
  have hclean : st.Clean ⟨.mapping id, n⟩ := by
    refine ⟨⟨(List.getElem?_eq_some_iff.mp hid).1, fun c hc => ?_⟩, hn⟩
    rw [hmapping, hm.value] at hc
    cases hc
  obtain ⟨hsettles, hsolid⟩ := hA _ a hclean hna
  refine ⟨?_, hsolid⟩
  cases hsettles with
  | mapped hf hy hmade =>
    rw [hmapping] at hy
    refine Mapped.solves hm.keys (hy.mono fun v w hvw => ?_) hf hmade.form
    simp only [ValueAnswer, hmapping, hm.value] at hvw
    obtain ⟨images, hall, hrun⟩ := hvw.unites ht hs ha
    refine ⟨images, hall.imp fun x b hb => ?_, hrun⟩
    rw [Image, isMapped_eq]
    exact hb
  | unmapped h =>
    rw [hmapping] at h
    exact .other (h.isMapped hm.keys) rfl

/-- Right answers solve the equation. -/
theorem Solved.deepImage {t a : TypeId} (h : OperatorAnswer st A (.mapping id) t a) :
    DeepImage st m t a :=
  ⟨_, hA.coherent ht hs ha hid hm, h.unites ht hs ha⟩

end Solved

structure AtRest (s : State) : Prop where
  idle : Idle s
  proper : Proper s

section AtRest

variable {s : State} (h : AtRest s)

theorem atRest_start {st : Store} (hg : Discipline.Good .typed st) (hr : st.Reached) :
    AtRest (start, st) :=
  ⟨idle_start hg.given hr, proper_start hg hr⟩

include h

theorem AtRest.later {s' : State} (ha : Advances s s') (hp : Proceeds s s') : AtRest s' :=
  ⟨h.idle.later ha, h.proper.later hp⟩

theorem AtRest.renewed : AtRest (start, s.2) := atRest_start h.proper.ready.good h.proper.reached

variable {m : Mapping} (hm : m.Deep) {t : TypeId} (ht : s.2.Solid t)

include hm ht

/-- An evaluator that hits no limit answers with what the deep mapping makes of the type. -/
theorem AtRest.applyMapping {id : MappingId} (hid : s.2.mappings.get? id = some m) :
    let r := Action.run (applyMapping id t) s
    AtRest r.2 ∧ s.2.Extends r.2.2 ∧ (r.2.1.guard.overrun = false → DeepImage r.2.2 m t r.1) := by
  intro r
  have hmapping : s.2.mapping id = m := by
    rw [Store.mapping, hid]
    rfl
  have hclean : s.2.Clean ⟨.mapping id, t⟩ := by
    refine ⟨⟨(List.getElem?_eq_some_iff.mp hid).1, fun c hc => ?_⟩, ht⟩
    rw [hmapping, hm.value] at hc
    cases hc
  obtain ⟨hadvances, hright⟩ := advances_operator h.idle.orderly h.idle.visiting hclean.knows
  have hdistributive : s.2.Distributive (.mapping id) := trivial
  have hproceeds := (proceeds_distributive h.proper hdistributive ht.lt_size).1
  have hafter := h.later hadvances hproceeds
  refine ⟨hafter, hproceeds.upholds.store.grown, fun ho => ?_⟩
  have hanswer := (hright.right (hclean.carries hadvances.carries h.idle.orderly.anchored) ho).1
  exact (hafter.idle.orderly.solved ho).deepImage hafter.proper.tidy hafter.proper.reached.shared
    hafter.proper.anchored (hproceeds.upholds.store.grown.mappings.get? hid) hm hanswer

theorem AtRest.applies {act : TypeId → EvalM TypeId} (hact : Applies s.2 m act) :
    let r := Action.run (act t) s
    AtRest r.2 ∧ s.2.Extends r.2.2 ∧ (r.2.1.guard.overrun = false → DeepImage r.2.2 m t r.1) := by
  cases hact with
  | held hid => exact h.applyMapping hm ht hid
  | anew =>
    have hconditional (id : ConditionalId) (hid : m.value = .conditional id) :
        id < s.2.conditionals.items.length := by
      rw [hm.value] at hid
      cases hid
    have htyped : Leads (Discipline.Evolves .typed) (Store.internMapping m) s.2 _ :=
      Discipline.leads_internMapping fun _ => hconditional
    have hgiven : Leads (Discipline.Evolves .given) (Store.internMapping m) s.2 _ :=
      Discipline.leads_internMapping fun _ => hconditional
    have hbegun := h.later (.lift hgiven.1) (.lift htyped.1)
    obtain ⟨hafter, hgrown, himage⟩ := hbegun.applyMapping hm
      (ht.widens h.proper.anchored htyped.1.grown.widens)
      (htyped.2 (htyped.1.grown.indexed.mpr h.proper.anchored.indexed))
    exact ⟨hafter, htyped.1.grown.trans hgrown, himage⟩

end AtRest

/-- Each action is taken on what the last one answered, by the evaluator that took the last one or
by a fresh one, and no limit is hit. -/
inductive Pipeline : List (TypeId → EvalM TypeId) → State → TypeId → State → TypeId → Prop
  | done {s : State} {t : TypeId} : Pipeline [] s t s t
  | step {act : TypeId → EvalM TypeId} {acts : List (TypeId → EvalM TypeId)} {s s' : State}
      {t a : TypeId}
    (ho : (Action.run (act t) s).2.1.guard.overrun = false)
    (h : Pipeline acts (Action.run (act t) s).2 (Action.run (act t) s).1 s' a) :
    Pipeline (act :: acts) s t s' a
  | renew {acts : List (TypeId → EvalM TypeId)} {s s' : State} {t a : TypeId}
    (h : Pipeline acts (start, s.2) t s' a) : Pipeline acts s t s' a

def DeepImages (st : Store) : List Mapping → TypeId → TypeId → Prop
  | [], t, a => a = t
  | m :: ms, t, a => DeepImage st (ms.foldl Mapping.deepened m) t a

theorem deep_foldl {m : Mapping} (hm : m.Deep) (ms : List Mapping) :
    (ms.foldl Mapping.deepened m).Deep := by
  induction ms generalizing m with
  | nil => exact hm
  | cons m' _ ih => exact ih (Mapping.deep_deepened m m')

section DeepImages

variable {st : Store} {ms : List Mapping} (hms : ∀ m ∈ ms, m.Deep) {t a : TypeId} (ht : st.Solid t)

include hms ht

theorem DeepImages.widens (ha : st.Anchored) (hl : st.Linked) {st' : Store} (hw : st.Widens st')
    (h : DeepImages st ms t a) : DeepImages st' ms t a := by
  cases ms with
  | nil => exact h
  | cons m ms => exact DeepImage.widens ha hl hw (deep_foldl (hms m (by simp)) ms).keys ht h

theorem DeepImages.solid (ha : st.Anchored) (hl : st.Linked) (h : DeepImages st ms t a) :
    st.Solid a := by
  cases ms with
  | nil => exact h ▸ ht
  | cons m ms => exact DeepImage.solid ha hl ht h

/-- One more mapping makes one more of the last answer. -/
theorem DeepImages.next (hs : st.Shared) (htidy : st.Tidy) (ha : st.Anchored) (hl : st.Linked)
    {m : Mapping} (hm : m.Deep) (h : DeepImages st ms t a) {b : TypeId} (hb : DeepImage st m a b) :
    DeepImages st (ms ++ [m]) t b := by
  cases ms with
  | nil => exact h ▸ hb
  | cons m' ms =>
    show DeepImage st ((ms ++ [m]).foldl Mapping.deepened m') t b
    rw [List.foldl_append]
    have hdeep := deep_foldl (hms m' (by simp)) ms
    exact DeepImage.trans htidy hs ha hl (Mapping.chains_deepened hdeep hm) rfl ht h hb

end DeepImages

/-- A pipeline of deep mappings adds what they make of a type to what was made of it before. -/
theorem Pipeline.images {acts : List (TypeId → EvalM TypeId)} {s s' : State} {t a : TypeId}
    (h : Pipeline acts s t s' a) (hr : AtRest s) {ms : List Mapping}
    (hacts : List.Forall₂ (Applies s.2) ms acts) (hms : ∀ m ∈ ms, m.Deep) {before : List Mapping}
    (hbefore : ∀ m ∈ before, m.Deep) {subject : TypeId} (hsubject : s.2.Solid subject)
    (himages : DeepImages s.2 before subject t) :
    AtRest s' ∧ s.2.Extends s'.2 ∧ DeepImages s'.2 (before ++ ms) subject a := by
  induction h generalizing ms before with
  | done =>
    cases hacts
    rw [List.append_nil]
    exact ⟨hr, .refl _, himages⟩
  | @step act acts s s' t a ho _ ih =>
    cases hacts with
    | @cons m _ ms _ hact hrest =>
      have hlinked := hr.idle.orderly.linked
      have hsolid := himages.solid hbefore hsubject hr.proper.anchored hlinked
      have hm := hms m (by simp)
      obtain ⟨hafter, hgrown, himage⟩ := hr.applies hm hsolid hact
      have hsubject₁ := hsubject.widens hr.proper.anchored hgrown.widens
      have hnext := (himages.widens hbefore hsubject hr.proper.anchored hlinked hgrown.widens).next
        hbefore hsubject₁ hafter.proper.reached.shared hafter.proper.tidy hafter.proper.anchored
        hafter.idle.orderly.linked hm (himage ho)
      obtain ⟨hlast, hgrown', hall⟩ := ih hafter (hrest.imp fun _ _ h => h.later hgrown)
        (fun m hm => hms m (by simp [hm])) (by simpa [or_imp, forall_and] using ⟨hbefore, hm⟩)
        hsubject₁ hnext
      rw [List.append_assoc] at hall
      exact ⟨hlast, hgrown.trans hgrown', hall⟩
  | renew _ ih => exact ih hr.renewed hacts hms hbefore hsubject himages

def Confirms (st : Store) (subject : TypeId) (one other : List (TypeId → EvalM TypeId)) : Prop :=
  ∀ s a s' b, Pipeline one (start, st) subject s a → Pipeline other s subject s' b → b = a

def Agree (st : Store) (subject : TypeId) (one other : List (TypeId → EvalM TypeId)) : Prop :=
  Confirms st subject one other ∧ Confirms st subject other one

section Agree

variable {st : Store} (hg : Discipline.Good .typed st) (hr : st.Reached) {subject : TypeId}
  (hsubject : st.Solid subject) {m m' : Mapping} {ms ms' : List Mapping}
  {one other : List (TypeId → EvalM TypeId)}
  (hone : List.Forall₂ (Applies st) (m :: ms) one)
  (hother : List.Forall₂ (Applies st) (m' :: ms') other)
  (hdeep : ∀ n ∈ m :: ms, n.Deep) (hdeep' : ∀ n ∈ m' :: ms', n.Deep)

include hg hr hsubject hone hother hdeep hdeep'

/-- Two pipelines that set the same flags in the end give the same answer. -/
theorem confirms_of_deepened (hsame : ms.foldl Mapping.deepened m = ms'.foldl Mapping.deepened m') :
    Confirms st subject one other := by
  intro s a s' b h h'
  have hnone : ∀ n ∈ ([] : List Mapping), n.Deep := fun _ h => by cases h
  obtain ⟨hrest, hgrown, himages⟩ := h.images (atRest_start hg hr) hone hdeep hnone hsubject rfl
  have hsubject₁ : s.2.Solid subject :=
    hsubject.widens (hg.anchored fun h => by cases h) hgrown.widens
  obtain ⟨hrest', hgrown', himages'⟩ :=
    h'.images hrest (hother.imp fun _ _ h => h.later hgrown) hdeep' hnone
    hsubject₁ rfl
  -- Both answers are images of the subject under one and the same mapping, in the last store.
  have hkeys := (deep_foldl (hdeep m (by simp)) ms).keys
  have hfirst : DeepImage s'.2 (ms.foldl Mapping.deepened m) subject a :=
    DeepImage.widens hrest.proper.anchored hrest.idle.orderly.linked hgrown'.widens hkeys
      hsubject₁ himages
  have hsecond : DeepImage s'.2 (ms'.foldl Mapping.deepened m') subject b := himages'
  rw [← hsame] at hsecond
  exact hsecond.unique hrest'.proper.reached.shared hrest'.proper.anchored hkeys
    (hsubject₁.widens hrest.proper.anchored hgrown'.widens) hfirst

theorem agree_of_deepened (hsame : ms.foldl Mapping.deepened m = ms'.foldl Mapping.deepened m') :
    Agree st subject one other :=
  ⟨confirms_of_deepened hg hr hsubject hone hother hdeep hdeep' hsame,
    confirms_of_deepened hg hr hsubject hother hone hdeep' hdeep hsame.symm⟩

end Agree

end Evaluator

namespace Operation

open Evaluator

/-- Two deep mappings do one after the other what one does at once that has each modifier of the
second, or else that of the first, on types from which no placeholder can be reached. So making
everything optional, required or readonly twice is the same as doing it once, and it does not matter
whether everything is first made optional or first made readonly. -/
theorem deep_mappings_compose {ops : List Operation} (h : AllAccepted .typed .initial ops)
    {subject : TypeId} (hsubject : (afterAll .initial ops).Solid subject) :
    let st := afterAll .initial ops
    (∀ (m₁ m₂ : Mapping) (first second whole : TypeId → EvalM TypeId), m₁.Deep → m₂.Deep →
      Applies st m₁ first → Applies st m₂ second → Applies st (m₁.deepened m₂) whole →
      Agree st subject [first, second] [whole]) ∧
    (∀ act ∈ [deepPartial, deepRequired, deepReadonly], Agree st subject [act, act] [act]) ∧
    Agree st subject [deepPartial, deepReadonly] [deepReadonly, deepPartial] := by
  intro st
  have hg : Discipline.Good .typed st := h.good
  have hr : st.Reached := reached_afterAll .initial ops
  have hcompose (m₁ m₂ : Mapping) (first second whole : TypeId → EvalM TypeId) (hm₁ : m₁.Deep)
      (hm₂ : m₂.Deep)
      (hfirst : Applies st m₁ first) (hsecond : Applies st m₂ second)
      (hwhole : Applies st (m₁.deepened m₂) whole) :
      Agree st subject [first, second] [whole] :=
    agree_of_deepened hg hr hsubject (.cons hfirst (.cons hsecond .nil)) (.cons hwhole .nil)
      (by simp [hm₁, hm₂]) (by simp [Mapping.deep_deepened]) rfl
  refine ⟨hcompose, fun act hact => ?_, ?_⟩
  · simp only [List.mem_cons, List.not_mem_nil, or_false] at hact
    rcases hact with rfl | rfl | rfl
    all_goals exact hcompose _ _ _ _ _ ⟨rfl, rfl⟩ ⟨rfl, rfl⟩ .anew .anew .anew
  · exact agree_of_deepened hg hr hsubject (.cons .anew (.cons .anew .nil))
      (.cons .anew (.cons .anew .nil))
      (by simp [Mapping.deep_iff]) (by simp [Mapping.deep_iff]) rfl

/-- Objects with a field of a union whose members differ in an optional field only, and with an
array of it. -/
def nested : List Operation :=
  [.build (.object { fields := [{ name := "a", type := .string }] }),
    .build (.object { fields := [{ name := "a", type := .string, optional := true }] }),
    .build (.union [12, 13]), .build (.array 14),
    .build (.object { fields := [{ name := "one", type := 14 }, { name := "all", type := 15 }] })]

def collapsed : Shape :=
  { fields := [{ name := "one", type := 25, optional := true, readonly := true },
      { name := "all", type := 27, optional := true, readonly := true }] }

/-- Once all is optional the members of the union are the same, so that the second mapping finds no
union in the one order and a union in the other. -/
theorem deep_mappings_compose_collapsing :
    AllAccepted .typed .initial nested ∧
    let st := afterAll .initial nested
    st.Solid 16 ∧ ∃ s s', Pipeline [deepPartial, deepReadonly] (start, st) 16 s 28 ∧
      Pipeline [deepReadonly, deepPartial] s 16 s' 28 ∧ s'.2.form? 28 = some (.object collapsed) ∧
      s'.2.form? 27 = some (.array 25) := by
  have haccepted : AllAccepted .typed .initial nested := allAccepted_of_builds (by decide +kernel)
  refine ⟨haccepted, ?_⟩
  intro st
  have hsolid : st.Solid 16 :=
    Store.solid_of_closed [.string, 12, 13, 14, 15, 16] (by decide +kernel)
    (by decide +kernel) (by decide)
  suffices hruns : ∃ s s' a b, Pipeline [deepPartial, deepReadonly] (start, st) 16 s a ∧
      Pipeline [deepReadonly, deepPartial] s 16 s' b ∧ a = 28 ∧
      s'.2.form? 28 = some (.object collapsed) ∧
      s'.2.form? 27 = some (.array 25) by
    obtain ⟨s, s', a, b, hone, hother, rfl, hforms⟩ := hruns
    obtain rfl := (deep_mappings_compose haccepted hsolid).2.2.1 _ _ _ _ hone hother
    exact ⟨hsolid, s, s', hone, hother, hforms⟩
  exact ⟨_, _, _, _, .step (by decide +kernel) (.step (by decide +kernel) .done),
    .step (by decide +kernel) (.step (by decide +kernel) .done),
    by decide +kernel, by decide +kernel,
    by decide +kernel⟩

/-- An array that is built of itself, by its identifier before it has been given out, is made
optional to another array each time. -/
theorem deep_partial_foreign_array :
    let st := afterAll .initial [.build (.array 12)]
    st.Solid 12 ∧ st.form? 12 = some (.array 12) ∧
    ¬ Agree st 12 [deepPartial, deepPartial] [deepPartial] := by
  intro st
  refine ⟨Store.solid_of_closed [12] (by decide +kernel) (by decide +kernel) (by decide),
    by decide +kernel, ?_⟩
  intro hagree
  have hsame := hagree.1 _ _ _ _ (.step (by decide +kernel) (.step (by decide +kernel) .done))
    (.step (by decide +kernel) .done)
  exact absurd hsame (by decide +kernel)

end Operation

end TypeCalculus
