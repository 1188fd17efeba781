import TypeCalculus.Proofs.BuildRules
import TypeCalculus.Proofs.MatchKinds

namespace TypeCalculus

variable {r : BuildRules}

theorem Bindings.AreOf.kept {bindings : Bindings} {st st' : Store} (h : bindings.AreOf r.Fit st)
    (hg : r.Good st) (hs : r.Evolves st st') : bindings.AreOf r.Fit st' :=
  fun name t ht => r.later hg hs (h name t ht)

theorem Bindings.runs_bind {st : Store} (hg : r.Good st) {bindings : Bindings}
    (h : bindings.AreOf r.Fit st) {candidate : TypeId} (hc : r.Fit st candidate) (name : String)
    (variance : Variance) :
    Runs r.Again r.Evolves (bindings.bind name candidate variance) st fun bindings' st' =>
      bindings'.AreOf r.Fit st' := by
  have hpair {held : TypeId} (hh : bindings.get? name = some held) :
      ∀ t ∈ [held, candidate], r.Fit st t := by
    intro t ht
    rcases List.mem_pair.mp ht with rfl | rfl
    · exact h name t hh
    · exact hc
  unfold Bindings.bind
  split
  · exact Runs.pure (h.insert hc)
  · rename_i held hh
    apply (r.build (f := .union _) hg (hpair hh) fun _ => trivial).bind
    intro t st' hs ht
    exact Runs.pure ((h.kept hg hs).insert ht)
  · rename_i held hh
    apply (r.build (f := .intersection _) hg (hpair hh) fun _ => trivial).bind
    intro t st' hs ht
    exact Runs.pure ((h.kept hg hs).insert ht)

namespace Matcher

structure Ready (r : BuildRules) (s : State) : Prop where
  good : r.Good s.2
  bindings : s.1.bindings.AreOf r.Fit s.2

structure Upholds (r : BuildRules) (s s' : State) : Prop where
  store : r.Evolves s.2 s'.2
  guard : s.1.guard.Kept s'.1.guard
  ready : Ready r s → Ready r s'

instance : Foregoing r.Again (Upholds r) where
  refl s := ⟨Evolution.refl s.2, .refl _, id⟩
  trans h h' := ⟨Evolution.trans h.store h'.store, h.guard.trans h'.guard,
    fun hs => h'.ready (h.ready hs)⟩
  before h hw := r.before h.store hw

variable {s : State} (hs : Ready r s)

theorem runs_store {α : Type} {x : StoreM α} {Q : α → Store → Prop}
    (h : Runs r.Again r.Evolves x s.2 Q) :
    Runs r.Again (Upholds r) (liftM x : MatchM α) s fun a s' => Q a s'.2 := by
  refine runs_lift h ⟨h.leads.1, .refl _, fun hs => ⟨r.good h.leads.1 hs.good, ?_⟩⟩ h.leads.2
  exact hs.bindings.kept hs.good h.leads.1

section Actions

include hs

theorem fit_later {s' : State} (h : Upholds r s s') {t : TypeId} (ht : r.Fit s.2 t) :
    r.Fit s'.2 t :=
  r.later hs.good h.store ht

theorem runs_bind (name : String) {candidate : TypeId} (hc : r.Fit s.2 candidate)
    (variance : Variance) :
    Runs r.Again (Upholds r) (bind name candidate variance) s fun _ _ => True := by
  unfold bind
  apply runs_get
  apply (runs_store (Bindings.runs_bind hs.good hs.bindings hc name variance)).bind
  intro bindings s₁ h₁ hb
  apply runs_modify _ trivial
  exact ⟨Evolution.refl _, .refl _, fun hs₁ => ⟨hs₁.good, hb⟩⟩

theorem runs_containsInfer {t : TypeId} (ht : r.Fit s.2 t) :
    Runs r.Again (Upholds r) (containsInfer t) s fun _ _ => True := by
  unfold containsInfer
  apply runs_get
  split
  · exact Runs.pure trivial
  · apply runs_getStore
    · apply Runs.bind (Q := fun _ _ => True)
      · exact runs_modify ⟨Evolution.refl _, .refl _, fun hs => ⟨hs.good, hs.bindings⟩⟩ trivial
      · exact fun _ _ _ _ => Runs.pure trivial
    · intro st' hw
      have hscan : st'.containsInfer t = s.2.containsInfer t :=
        (r.steady hs.good ht hw).scan (r.founded hs.good hw) (r.wider hw) _
      simp only [hscan]

/-- The bindings from before are still bindings to types that may be used. -/
theorem runs_attempt {action : MatchM Bool}
    (ha : Runs r.Again (Upholds r) action s fun _ _ => True) :
    Runs r.Again (Upholds r) (attempt action) s fun _ _ => True := by
  unfold attempt
  apply runs_get
  apply ha.bind
  intro matched s₁ h₁ _
  cases matched with
  | true => exact Runs.pure trivial
  | false =>
    apply Runs.bind (Q := fun _ _ => True)
    · apply runs_modify _ trivial
      exact ⟨Evolution.refl _, .refl _, fun hs₁ => ⟨hs₁.good, hs.bindings.kept hs.good h₁.store⟩⟩
    · exact fun _ _ _ _ => Runs.pure trivial

end Actions

section Operands

variable {st : Store} (hg : r.Good st)

include hg

theorem runs_elementType {slot : Slot} (ht : r.Fit st slot.type) :
    Runs r.Again r.Evolves (elementType slot) st fun t st' => r.Fit st' t := by
  unfold elementType
  apply runs_read
  · split
    · exact Runs.pure ht
    · split
      · rename_i element hl
        have hm := Store.mentions_of_form (Store.form_of_lookup hl)
        exact Runs.pure (r.child hg ht (by simp [hm, Store.form, Form.mentions]))
      · rename_i elements hl
        have hm := Store.mentions_of_form (Store.form_of_lookup hl)
        apply r.build (f := .union _) hg _ fun _ => trivial
        intro c hc
        exact r.child hg ht (hm ▸ hc)
      · exact Runs.pure ht
  · intro st' hw
    have hsteady := r.steady hg ht hw
    rw [hsteady.lookup]
    split
    · rfl
    · split
      · rfl
      · rename_i elements hl
        rw [Form.tuple.inj (hsteady.form_node hl)]
      · rfl

theorem runs_remainder {slots : List Slot} (ht : ∀ c ∈ slots.map Slot.type, r.Fit st c) :
    Runs r.Again r.Evolves (remainder slots) st fun t st' => r.Fit st' t := by
  have htuple := r.build (f := .tuple slots) hg ht fun _ => trivial
  unfold remainder
  split
  · split
    · exact Runs.pure (ht _ (by simp))
    · exact htuple
  · exact htuple

/-- What a question is about may be used, and is found again. -/
theorem runs_fetch {subject : TypeId} {f : Form} (ht : r.Fit st subject)
    (hf : ∀ c ∈ f.mentions, r.Fit st c) {x : Operand} (hx : x.Of f) :
    Runs r.Again r.Evolves (x.fetch subject) st fun t st' => r.Fit st' t := by
  cases x with
  | whole => exact Runs.pure ht
  | part t =>
    rcases hx with hx | rfl
    · exact Runs.pure (hf t hx)
    · exact Runs.pure (r.intrinsic hg rfl)
  | element slot => exact runs_elementType hg (hf _ (Form.slot_mentioned hx))
  | rest slots =>
    obtain ⟨n, rfl⟩ := hx
    apply runs_remainder hg
    intro c hc
    obtain ⟨slot, hm, rfl⟩ := List.mem_map.mp hc
    exact hf _ (Form.slot_mentioned (List.mem_of_mem_drop hm))

end Operands

section Step

variable {ask : Goal → MatchM Bool}
variable (hask : ∀ (goal : Goal) (s : State), Ready r s → r.Fit s.2 goal.subject →
  r.Fit s.2 goal.pattern → Runs r.Again (Upholds r) (ask goal) s fun _ _ => True)

include hask hs

theorem runs_askParameter {subject pattern : TypeId} (ht : r.Fit s.2 subject)
    (hp : r.Fit s.2 pattern) (variance : Variance) :
    Runs r.Again (Upholds r) (askParameter ask subject pattern variance) s fun _ _ => True := by
  unfold askParameter
  apply (runs_containsInfer hs hp).bind
  intro found s₁ h₁ _
  have ht₁ := fit_later hs h₁ ht
  have hp₁ := fit_later hs h₁ hp
  cases found with
  | true => exact hask _ s₁ (h₁.ready hs) ht₁ hp₁
  | false => exact hask _ s₁ (h₁.ready hs) hp₁ ht₁

/-- A question keeps to the rules if the level below does. -/
theorem runs_question {goal : Goal} {f g : Form} {q : Question} (hq : q.Between f g)
    (ht : r.Fit s.2 goal.subject) (hp : r.Fit s.2 goal.pattern)
    (hf : ∀ c ∈ f.mentions, r.Fit s.2 c) (hg : ∀ c ∈ g.mentions, r.Fit s.2 c) :
    Runs r.Again (Upholds r) (q.run ask goal) s fun _ _ => True := by
  have hagainst : r.Fit s.2 (q.against.getD goal.pattern) := by
    cases ha : q.against with
    | none => exact hp
    | some b => exact hg b (hq.against ha)
  unfold Question.run
  apply (runs_store (runs_fetch hs.good ht hf hq.operand)).bind
  intro t s₁ h₁ htaken
  have hb := fit_later hs h₁ hagainst
  unfold Question.put
  split
  · exact runs_askParameter (h₁.ready hs) hask htaken hb goal.variance
  · exact hask _ s₁ (h₁.ready hs) htaken hb

/-- An inquiry keeps to the rules if its questions do. -/
theorem runs_inquiry {goal : Goal} {f g : Form} {i : Inquiry} (hi : i.Between f g)
    (ht : r.Fit s.2 goal.subject) (hp : r.Fit s.2 goal.pattern)
    (hf : ∀ c ∈ f.mentions, r.Fit s.2 c) (hg : ∀ c ∈ g.mentions, r.Fit s.2 c) :
    Runs r.Again (Upholds r) (i.run ask goal) s fun _ _ => True := by
  cases i with
  | all checks =>
    apply Runs.allM
    intro check hc s₁ h₁
    have hb := hi check hc
    cases check with
    | settled holds => exact Runs.pure trivial
    | asked q =>
      exact runs_question (h₁.ready hs) hask hb (fit_later hs h₁ ht) (fit_later hs h₁ hp)
        (fun c hc => fit_later hs h₁ (hf c hc)) fun c hc => fit_later hs h₁ (hg c hc)
  | first members =>
    cases hi
    apply Runs.anyM
    intro t hm s₁ h₁
    have hs₁ := h₁.ready hs
    exact runs_attempt hs₁ (hask _ s₁ hs₁ (fit_later hs h₁ ht) (fit_later hs h₁ (hg t hm)))
  | each members =>
    cases hi
    apply Runs.foldlM trivial
    intro matched t hm s₁ h₁ _
    have hs₁ := h₁.ready hs
    apply (runs_attempt hs₁
      (hask { goal with subject := t } s₁ hs₁ (fit_later hs h₁ (hf t hm))
        (fit_later hs h₁ hp))).bind
    intro found s₂ _ _
    cases found <;> exact Runs.pure trivial

theorem runs_matchStructure {goal : Goal} {pattern : Node} (ht : r.Fit s.2 goal.subject)
    (hp : r.Fit s.2 goal.pattern) (hl : s.2.lookup goal.pattern = some pattern) :
    Runs r.Again (Upholds r) (matchStructure ask goal pattern) s fun _ _ => True := by
  have parts {t : TypeId} {f : Form} (ht : r.Fit s.2 t) (hf : s.2.form? t = some f) :
      ∀ c ∈ f.mentions, r.Fit s.2 c :=
    fun c hc => r.child hs.good ht (Store.mentions_of_form hf ▸ hc)
  rw [matchStructure_eq]
  apply runs_getStore
  · unfold Store.inquiry
    split
    · exact runs_inquiry hs hask (f := .intrinsic .never) (g := .intrinsic .never)
        (fun _ hc => by cases List.mem_singleton.mp hc; trivial) ht hp (fun _ h => by cases h)
        fun _ h => by cases h
    · rename_i f hf
      exact runs_inquiry hs hask (Form.between_inquiry _ f _) ht hp (parts ht hf)
        (parts hp (Store.form_of_lookup hl))
  · intro st' hw
    have hsame : st'.inquiry goal.subject (st'.form pattern) =
        s.2.inquiry goal.subject (s.2.form pattern) := by
      unfold Store.inquiry
      rw [(r.steady hs.good ht hw).form, (r.steady hs.good hp hw).form_node hl]
    rw [hsame]

omit hask in
theorem runs_bindAny {goal : Goal} (hp : r.Fit s.2 goal.pattern) :
    Runs r.Again (Upholds r) (bindAny goal) s fun _ _ => True := by
  unfold bindAny
  apply (runs_containsInfer hs hp).bind
  intro found s₁ h₁ _
  have hs₁ := h₁.ready hs
  cases found with
  | false => exact Runs.pure trivial
  | true =>
    apply runs_getStore
    · apply Runs.forM
      intro name _ s₂ h₂
      have hs₂ := h₂.ready hs₁
      exact runs_bind hs₂ name (r.intrinsic hs₂.good rfl) goal.variance
    · intro st' hw
      have hsteady := r.steady hs₁.good (fit_later hs h₁ hp) hw
      rw [hsteady.inferVariables (r.founded hs₁.good hw) (r.wider hw)]

/-- One level of the walk, if the level below keeps to the rules. -/
theorem runs_step {goal : Goal} (ht : r.Fit s.2 goal.subject) (hp : r.Fit s.2 goal.pattern) :
    Runs r.Again (Upholds r) (step ask goal) s fun _ _ => True := by
  unfold step
  split
  · exact Runs.pure trivial
  · apply runs_getStore
    · split
      · exact Runs.pure trivial
      · exact (runs_bind hs _ ht goal.variance).bind fun _ _ _ _ => Runs.pure trivial
      · rename_i pattern _ hl
        split
        · exact Runs.pure trivial
        · split
          · exact (runs_bindAny hs hp).bind fun _ _ _ _ => Runs.pure trivial
          · have inside (g : Guard Goal) : Ready r (Guarded.setGuard g s.1, s.2) :=
              ⟨hs.good, hs.bindings⟩
            apply runs_visit
            · exact fun g _ => runs_matchStructure (inside g) hask ht hp hl
            · intro g hi _ s' h _
              have hs' := h.ready (inside g)
              exact ⟨⟨h.store, hi.leave h.guard, fun _ => ⟨hs'.good, hs'.bindings⟩⟩, trivial⟩
            · exact fun g hk => ⟨⟨Evolution.refl _, hk, fun _ => inside g⟩, trivial, trivial⟩
    · intro st' hw
      rw [(r.steady hs.good hp hw).lookup]

end Step

/-- However deep the walk may still go. -/
theorem runs_descend (room : Nat) (goal : Goal) {s : State} (hs : Ready r s)
    (ht : r.Fit s.2 goal.subject) (hp : r.Fit s.2 goal.pattern) :
    Runs r.Again (Upholds r) (descend step (fun _ => return false) room goal) s
      fun _ _ => True := by
  refine descend_induction (motive := fun f => ∀ (goal : Goal) (s : State), Ready r s →
    r.Fit s.2 goal.subject → r.Fit s.2 goal.pattern →
      Runs r.Again (Upholds r) (f goal) s fun _ _ => True) ?_ ?_ room goal s hs ht hp
  · exact fun _ _ _ _ _ => Runs.pure trivial
  · exact fun f hf _ _ hs ht hp => runs_step hs hf ht hp

end Matcher

section Whole

variable {st : Store} (hg : r.Good st) {subject pattern : TypeId} (ht : r.Fit st subject)
  (hp : r.Fit st pattern)

include hg ht hp

/-- A run of the matcher keeps to the rules and is repeated in every later store. -/
theorem Matcher.runs_run (limits : Limits) :
    Runs r.Again r.Evolves (Matcher.run limits subject pattern) st fun found st' =>
      found.2.bindings.AreOf r.Fit st' := by
  have hfirst : Ready r (start limits, st) := ⟨hg, fun _ _ h => by cases h⟩
  have hrun : Runs r.Again (Upholds r) (ask limits ⟨subject, pattern, .covariant⟩)
      (start limits, st) fun _ s' => s'.1.bindings.AreOf r.Fit s'.2 :=
    (runs_descend _ _ hfirst ht hp).mono fun _ _ h _ => (h.ready hfirst).bindings
  exact runs_start hrun fun h => h.store

/-- Whatever the subject and the pattern are, matching keeps to the rules and binds variables to
types that may be used; done again in a later store in which these read the same, it gives the same
answer and bindings. -/
theorem runs_matchPattern (limits : Limits) :
    Runs r.Again r.Evolves (matchPattern subject pattern limits) st fun found st' =>
      ∀ bindings, found = some bindings → bindings.AreOf r.Fit st' := by
  unfold matchPattern
  apply (Matcher.runs_run hg ht hp limits).bind
  intro found st' _ hfound
  apply Runs.pure
  intro bindings hb
  split at hb
  · cases hb
    exact hfound
  · cases hb

end Whole

end TypeCalculus
