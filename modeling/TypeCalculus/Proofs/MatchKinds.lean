import TypeCalculus.Proofs.Decision
import TypeCalculus.Proofs.Kinds

namespace TypeCalculus

open Store (Kind Later)

def Bindings.AreOf (P : Store → TypeId → Prop) (bindings : Bindings) (st : Store) : Prop :=
  ∀ name t, bindings.get? name = some t → P st t

namespace Bindings.AreOf

variable {P : Store → TypeId → Prop} {bindings : Bindings} {st : Store}

theorem insert (h : bindings.AreOf P st) {name : String} {t : TypeId} (ht : P st t) :
    AreOf P (bindings.insert name t) st := by
  intro probe u hu
  rw [Dict.get?_insert] at hu
  split at hu
  · exact Option.some.inj hu ▸ ht
  · exact h probe u hu

theorem later (kind : Kind P) {st' : Store} (hw : st.WellFormed) (hs : st.Extends st')
    (h : bindings.AreOf P st) : bindings.AreOf P st' :=
  fun name t ht => kind.later hw hs (h name t ht)

end Bindings.AreOf

theorem Bindings.leads_bind {P : Store → TypeId → Prop} (kind : Kind P) {st : Store}
    (hw : st.WellFormed) {bindings : Bindings} (h : bindings.AreOf P st) {candidate : TypeId}
    (hc : P st candidate) (name : String) (variance : Variance) :
    Leads Later (bindings.bind name candidate variance) st fun bindings' st' =>
      bindings'.AreOf P st' := by
  have hpair {held : TypeId} (hh : bindings.get? name = some held) :
      ∀ t ∈ [held, candidate], P st t := by
    intro t ht
    rcases List.mem_pair.mp ht with rfl | rfl
    · exact h name t hh
    · exact hc
  unfold Bindings.bind
  split
  · exact Leads.pure (h.insert hc)
  · rename_i held hh
    refine (kind.leads_mkUnion hw (hpair hh)).bind fun t st' hs ht => ?_
    exact Leads.pure ((h.later kind hw hs.grown).insert ht)
  · rename_i held hh
    refine (kind.leads_mkIntersection hw (hpair hh)).bind fun t st' hs ht => ?_
    exact Leads.pure ((h.later kind hw hs.grown).insert ht)

namespace Matcher

structure Held (P : Store → TypeId → Prop) (s : State) : Prop where
  sound : s.2.WellFormed
  bindings : s.1.bindings.AreOf P s.2
  known {t : TypeId} {answer : Bool} : s.1.scanned.get? t = some answer → t < s.2.size
  scanned : Scanned s

structure Keeps (P : Store → TypeId → Prop) (s s' : State) : Prop where
  later : Later s.2 s'.2
  kind : s.2.WellFormed → ∀ t, P s.2 t → P s'.2 t
  held : Held P s → Held P s'

instance (P : Store → TypeId → Prop) : Upkeep (Keeps P) where
  refl s := ⟨Evolution.refl s.2, fun _ _ h => h, id⟩
  trans h h' := ⟨Evolution.trans h.later h'.later,
    fun hw t ht => h'.kind (h.later.sound hw) t (h.kind hw t ht), fun hs => h'.held (h.held hs)⟩
  restore h := ⟨h.later, h.kind, fun hs =>
    { h.held hs with bindings := fun name t ht => h.kind hs.sound t (hs.bindings name t ht) }⟩
  blind _ _ h := ⟨h.later, h.kind, fun hs => { h.held { hs with } with }⟩

section Ground

variable {K : State → State → Prop}
variable (later : ∀ {s s' : State}, K s s' → Later s.2 s'.2)
variable (lift : ∀ {s : State} {st' : Store}, Later s.2 st' → K s (s.1, st'))

include lift in
theorem leads_grown {α : Type} {s : State} {x : StoreM α} {Q : α → Store → Prop}
    (h : Leads Later x s.2 Q) : Leads (Walk K) (liftM x : MatchM α) s fun a s' => Q a s'.2 :=
  leads_lift ⟨.refl _, lift h.1⟩ h.2

include later lift

/-- Subjects of a kind and patterns whose properties are inherited, while the store grows. -/
theorem ground_kinds {Subject Pattern : Store → TypeId → Prop} (hsub : Kind Subject)
    (hpat : Store.Inherited Pattern) :
    Ground (Walk K) (fun st t => st.WellFormed ∧ Subject st t)
      (fun st t => st.WellFormed ∧ Pattern st t) where
  subject_kept h ht := ⟨⟨(later h.kept).sound ht.1, hsub.later ht.1 (later h.kept).grown ht.2⟩,
    ht.1.form_extends (later h.kept).grown (hsub.lt_size ht.2)⟩
  pattern_kept h ht := ⟨⟨(later h.kept).sound ht.1, hpat.later ht.1 (later h.kept).grown ht.2⟩,
    ht.1.form_extends (later h.kept).grown (hpat.lt_size ht.2)⟩
  subject_child ht hc := ⟨ht.1, hsub.child ht.1 ht.2 hc⟩
  pattern_child ht hc := ⟨ht.1, hpat.child ht.1 ht.2 hc⟩
  unknown ht := ⟨ht.1, hsub.intrinsic .unknown ht.1⟩
  element ht hf hm := by
    have hslot := hsub.child ht.1 ht.2 (Store.mentions_of_form hf ▸ Form.slot_mentioned hm)
    exact (leads_grown lift (hsub.leads_elementType ht.1 hslot)).mono fun e s' hs he =>
      ⟨⟨(later hs.kept).sound ht.1, he.1⟩, he.2⟩
  element_kept h ht hf hm he :=
    (ht.1.sameParts (later h.kept).grown (hsub.lt_size ht.2)).element hf hm he
  remainder {s t p f g slot} n ht hf _ _ _ _ := by
    have hslots : ∀ slot ∈ f.slots.drop n, Subject s.2 slot.type :=
      fun slot hm => hsub.child ht.1 ht.2
      (Store.mentions_of_form hf ▸ Form.slot_mentioned (List.mem_of_mem_drop hm))
    exact (leads_grown lift (hsub.leads_remainder ht.1 hslots)).mono fun e s' hs he =>
      ⟨⟨(later hs.kept).sound ht.1, he.1⟩, he.2⟩
  remainder_kept h ht hf he :=
    (ht.1.sameParts (later h.kept).grown (hsub.lt_size ht.2)).remainder hf he

end Ground

/-- Showing every variable of a pattern an `any`. -/
theorem leads_bindAll {K : State → State → Prop} [Upkeep K] {s : State} {goal : Goal}
    (hs : Scanned s) (hscan : K s ({ s.1 with
      scanned := s.1.scanned.insert goal.pattern (s.2.containsInfer goal.pattern) }, s.2))
    (hbind : ∀ s', Walk K s s' → ∀ name,
      Leads (Walk K) (bind name .any goal.variance) s' fun _ _ => True) :
    Leads (Walk K) (bindAny goal) s fun _ _ => True := by
  unfold bindAny
  refine (leads_containsInfer hs ⟨.refl _, hscan⟩).bind fun answer s₁ h₁ _ => ?_
  split
  · exact leads_getStore (Leads.forM fun name _ s₂ h₂ => hbind s₂ (Evolution.trans h₁ h₂) name)
  · exact Leads.pure trivial

section Kinds

variable {P : Store → TypeId → Prop} (kind : Kind P)

include kind

theorem Keeps.store {s : State} {st' : Store} (h : Later s.2 st') : Keeps P s (s.1, st') where
  later := h
  kind hw _ ht := kind.later hw h.grown ht
  held hs :=
    { sound := h.sound hs.sound
      bindings := hs.bindings.later kind hs.sound h.grown
      known := fun hk => Nat.lt_of_lt_of_le (hs.known hk) h.grown.size
      scanned := fun t answer hk => by
        rw [hs.sound.containsInfer_extends h.grown (hs.known hk)]
        exact hs.scanned t answer hk }

theorem leads_store {α : Type} {s : State} {x : StoreM α} {Q : α → Store → Prop}
    (h : Leads Later x s.2 Q) :
    Leads (Walk (Keeps P)) (liftM x : MatchM α) s fun a s' => Q a s'.2 :=
  leads_grown (Keeps.store kind) h

/-- A candidate of the kind keeps the bindings of the kind. -/
theorem leads_bind {s : State} (hs : Held P s) {t : TypeId} (ht : P s.2 t) (name : String)
    (variance : Variance) : Leads (Walk (Keeps P)) (bind name t variance) s fun _ _ => True := by
  unfold bind
  refine leads_get ((leads_store kind
    (Bindings.leads_bind kind hs.sound hs.bindings ht name variance)).bind fun b s₁ _ hb => ?_)
  exact leads_modify ⟨.refl _, ⟨Evolution.refl _, fun _ _ h => h,
    fun h => { h with bindings := hb }⟩⟩
    trivial

omit kind in
/-- Remembering what a scan has found. -/
theorem Keeps.scan {s : State} {t : TypeId} (ht : t < s.2.size) :
    Keeps P s ({ s.1 with scanned := s.1.scanned.insert t (s.2.containsInfer t) }, s.2) := by
  refine ⟨Evolution.refl _, fun _ _ h => h, fun h => ?_⟩
  refine { h with known := fun {u answer} hk => ?_, scanned := h.scanned.insert t }
  rw [Dict.get?_insert] at hk
  split at hk
  · rename_i he
    exact he ▸ ht
  · exact h.known hk

omit kind in
theorem leads_scan {s : State} (hs : Held P s) {t : TypeId} (ht : t < s.2.size) :
    Leads (Walk (Keeps P)) (containsInfer t) s fun answer _ => answer = s.2.containsInfer t :=
  leads_containsInfer hs.scanned ⟨.refl _, .scan ht⟩

theorem leads_bindAny {s : State} (hs : Held P s) {goal : Goal} (ht : goal.pattern < s.2.size) :
    Leads (Walk (Keeps P)) (bindAny goal) s fun _ _ => True := by
  refine leads_bindAll hs.scanned (.scan ht) fun s' hs' name => ?_
  have hs' := hs'.kept.held hs
  exact leads_bind kind hs' (kind.intrinsic .any hs'.sound) name goal.variance

end Kinds

/-- What subjects and patterns are. The two change sides where values flow into a part and the
pattern has no variable there. -/
structure Sides (Subject Pattern : Store → TypeId → Prop) : Prop where
  subject : Kind Subject
  pattern : Store.Inherited Pattern
  free {st : Store} {t : TypeId} : st.WellFormed → Pattern st t → st.InferFree t → Subject st t
  turned {st : Store} {t : TypeId} : Subject st t → Pattern st t

/-- Subject and pattern may be of one kind. -/
theorem Sides.same {P : Store → TypeId → Prop} (kind : Kind P) : Sides P P :=
  ⟨kind, kind.toInherited, fun _ h _ => h, id⟩

/-- The pattern may be any type, if all types without infer variables are of the subject's kind. -/
theorem Sides.any {P : Store → TypeId → Prop} (kind : Kind P)
    (free : ∀ st t, st.WellFormed → t < st.size → st.InferFree t → P st t) :
    Sides P fun st t => t < st.size :=
  ⟨kind, Store.kind_valid.toInherited, fun hw ht hf => free _ _ hw ht hf, kind.lt_size⟩

section Sides

variable {P B : Store → TypeId → Prop} (sides : Sides P B)

include sides

/-- A subject of a kind only gives rise to bindings of that kind. -/
theorem rules_kinds :
    Rules (Keeps P) (Held P) (fun _ => True) (fun st t => st.WellFormed ∧ P st t)
      (fun st t => st.WellFormed ∧ B st t) (fun _ _ => True) (fun _ _ => False)
      (fun _ _ _ _ => True) (fun _ _ _ _ => False) where
  ground := ground_kinds (fun h => h.later) (Keeps.store sides.subject) sides.subject sides.pattern
  known _ _ h := h.kept.held
  blind _ h := { h with }
  stable_yes _ _ _ _ := id
  stable_asked _ _ _ _ := id
  stable_yes_into _ _ _ _ _ _ := id
  stable_asked_into _ _ _ _ _ _ := id
  same _ _ := trivial
  undefined _ _ _ := id
  bound hm _ := leads_bind sides.subject hm.known hm.subject.2 _ _
  extreme _ _ _ := trivial
  any hm _ _ := leads_bindAny sides.subject hm.known (sides.pattern.lt_size hm.pattern.2)
  met _ _ := trivial
  close _ _ _ _ _ := trivial
  unfold _ _ _ _ _ _ h := h.elim
  into {s ask} v hj hask := by
    intro _ _ _ _ _ s' hs' a b ha hb
    refine Leads.bind (leads_scan (hs'.kept.held hj) (sides.pattern.lt_size hb.2))
      fun answer s₁ h₁ he => ?_
    have hs₁ := Evolution.trans hs' h₁
    have hlater := h₁.kept.later
    have ha₁ : P s₁.2 a := sides.subject.later ha.1 hlater.grown ha.2
    cases answer with
    | true =>
      exact hask v.flip trivial s₁ hs₁ a b ⟨hlater.sound ha.1, ha₁⟩
        ⟨hlater.sound ha.1, sides.pattern.later hb.1 hlater.grown hb.2⟩
    | false =>
      have hfree := (Store.containsInfer_eq_false hb.1.founded).mp he.symm
      exact hask v.flip trivial s₁ hs₁ b a
        ⟨hlater.sound ha.1, sides.subject.later hb.1 hlater.grown (sides.free hb.1 hb.2 hfree)⟩
        ⟨hlater.sound ha.1, sides.turned ha₁⟩

/-- A match binds its variables to types of the subject's kind: parts of it, several of its slots
taken together, or unions and intersections of these. -/
theorem leads_run {st : Store} (hw : st.WellFormed) {subject pattern : TypeId} (hs : P st subject)
    (hp : B st pattern) (limits : Limits) :
    Leads Later (run limits subject pattern) st fun r st' => r.2.bindings.AreOf P st' := by
  have hstart : Held P (start limits, st) := ⟨hw, nofun, nofun, nofun⟩
  obtain ⟨h, _⟩ := (rules_kinds sides).decides_run limits
    ⟨hstart, trivial, ⟨hw, hs⟩, ⟨hw, hp⟩⟩
  exact TypeCalculus.leads_run h.kept.later (h.kept.held hstart).bindings

end Sides

end Matcher

/-- What a match binds is of the subject's kind. -/
theorem leads_matchPattern {P B : Store → TypeId → Prop} (sides : Matcher.Sides P B) {st : Store}
    (hw : st.WellFormed) {subject pattern : TypeId} (hs : P st subject) (hp : B st pattern)
    (limits : Limits) : Leads Later (matchPattern subject pattern limits) st fun found st' =>
      ∀ bindings, found = some bindings → bindings.AreOf P st' := by
  unfold matchPattern
  refine (Matcher.leads_run sides hw hs hp limits).bind fun r st' _ hr => Leads.pure ?_
  intro bindings hb
  split at hb
  · cases hb
    exact hr
  · cases hb

end TypeCalculus
