import TypeCalculus.Proofs.Empties
import TypeCalculus.Proofs.Replacing

namespace TypeCalculus.Substitution

open Store (Later EmptiesIn Drawn)

structure Given (bound : Set TypeId) (s : State) : Prop where
  sound : s.2.WellFormed
  valid {t : TypeId} : t ∈ bound → t < s.2.size
  infers {name : String} {t : TypeId} : s.1.infers.get? name = some t → t ∈ bound
  params {name : String} {t : TypeId} : s.1.params.get? name = some t → t ∈ bound
  memo {t a : TypeId} : s.1.memo.get? t = some a → t < s.2.size ∧ a < s.2.size

def Traces (bound : Set TypeId) (X : TypeId → Prop) (s : State) : Prop :=
  ∀ t a, s.1.memo.get? t = some a → Drawn X s.2 (insert t bound) a

/-- The store grows, and what is remembered meanwhile is drawn from what it was rebuilt from. -/
structure Tracks (bound : Set TypeId) (s s' : State) : Prop where
  later : Later s.2 s'.2
  given : Given bound s → Given bound s'
  traces : Given bound s → ∀ X, Traces bound X s → Traces bound X s'

structure DrawnFrom (bound : Set TypeId) (s₀ : State) (t a : TypeId) (s : State) : Prop where
  given : Given bound s
  source : t < s.2.size
  answer : a < s.2.size
  drawn {X : TypeId → Prop} : Traces bound X s₀ → Drawn X s.2 (insert t bound) a

variable {bound : Set TypeId} {s : State} {t : TypeId}

instance : Evolution (Tracks bound) where
  refl _ := ⟨Evolution.refl _, id, fun _ _ => id⟩
  trans h h' := ⟨Evolution.trans h.later h'.later, fun hs => h'.given (h.given hs),
    fun hs X hX => h'.traces (h.given hs) X (h.traces hs X hX)⟩

theorem Given.source_lt (hs : Given bound s) (ht : t < s.2.size) :
    ∀ v ∈ insert t bound, v < s.2.size := by
  intro v hv
  rcases hv with rfl | hv
  · exact ht
  · exact hs.valid hv

theorem Given.grown {st' : Store} (hs : Given bound s) (h : Later s.2 st') :
    Given bound (s.1, st') where
  sound := h.sound hs.sound
  valid ht := Nat.lt_of_lt_of_le (hs.valid ht) h.grown.size
  infers := hs.infers
  params := hs.params
  memo hm := ⟨Nat.lt_of_lt_of_le (hs.memo hm).1 h.grown.size,
    Nat.lt_of_lt_of_le (hs.memo hm).2 h.grown.size⟩

theorem Given.filled {u : TypeId} {body : Node} (hs : Given bound s)
    (hw : (s.2.filled u body).WellFormed) : Given bound (s.1, s.2.filled u body) where
  sound := hw
  valid hv := Store.filled_lt (hs.valid hv)
  infers := hs.infers
  params := hs.params
  memo hm := ⟨Store.filled_lt (hs.memo hm).1, Store.filled_lt (hs.memo hm).2⟩

theorem Tracks.store {st' : Store} (h : Later s.2 st') : Tracks bound s (s.1, st') where
  later := h
  given hs := hs.grown h
  traces hs _ hX t a hm := (hX t a hm).later hs.sound h.grown (hs.source_lt (hs.memo hm).1)

theorem DrawnFrom.later {s₀ s' : State} {a : TypeId} (h : DrawnFrom bound s₀ t a s)
    (hs : Tracks bound s s') : DrawnFrom bound s₀ t a s' where
  given := hs.given h.given
  source := Nat.lt_of_lt_of_le h.source hs.later.grown.size
  answer := Nat.lt_of_lt_of_le h.answer hs.later.grown.size
  drawn hX := (h.drawn hX).later h.given.sound hs.later.grown (h.given.source_lt h.source)

/-- The answer for a part is drawn from the whole. -/
theorem DrawnFrom.whole {s₀ s' : State} {c a : TypeId} (hs₀ : Given bound s₀)
    (ht : t < s₀.2.size) (hc : c ∈ s₀.2.mentions t) (hs : Tracks bound s₀ s)
    (h : DrawnFrom bound s c a s') (hs' : Tracks bound s s') : DrawnFrom bound s₀ t a s' where
  given := h.given
  source := Nat.lt_of_lt_of_le ht (Evolution.trans hs hs').later.grown.size
  answer := h.answer
  drawn {X} hX hin := by
    refine h.drawn (hs.traces hs₀ X hX) fun v hv => ?_
    rcases hv with he | hv
    · have hm : v ∈ s'.2.mentions t := by
        rw [hs₀.sound.mentions_extends (Evolution.trans hs hs').later.grown ht, he]
        exact hc
      exact (Store.kind_emptiesIn X).child h.given.sound (hin t (.inl rfl)) hm
    · exact hin v (Or.inr hv)

section Level

variable {replace : TypeId → SubstM TypeId} (hs : Given bound s) (ht : t < s.2.size)
variable (hrep : ∀ s' c, Given bound s' → c < s'.2.size →
  Leads (Tracks bound) (replace c) s' (DrawnFrom bound s' c))

include hs ht hrep

/-- A type is rebuilt of parts that were drawn from it. -/
theorem drawn_rebuild : Leads (Tracks bound) (rebuild replace t) s fun a s' =>
    Rebuilt (fun _ y => DrawnFrom bound s t y s') s'.2 s.1.infers s.1.params t (s.2.form? t) a := by
  refine leads_rebuild (R := fun _ y s' => DrawnFrom bound s t y s') (fun h => h.later) Tracks.store
    (fun _ _ _ _ h hd => hd.later h) (fun h => h.answer) hs.sound fun s' hs' c hc => ?_
  have hlt : c < s'.2.size := Nat.lt_of_lt_of_le ((hs.sound.sound t).inside hc) hs'.later.grown.size
  exact (hrep s' c (hs'.given hs) hlt).mono fun a s'' h h' => h'.whole hs ht hc hs' h

omit hs ht hrep in
/-- What is made of parts and bindings that were drawn from somewhere was drawn from there. -/
theorem Rebuilt.drawn {s' : State} {a : TypeId} (hs : Given bound s) (ht : t < s.2.size)
    (h' : Tracks bound s s')
    (h : Rebuilt (fun _ y => DrawnFrom bound s t y s') s'.2 s.1.infers s.1.params t (s.2.form? t) a)
    {X : TypeId → Prop} (hX : Traces bound X s) : Drawn X s'.2 (insert t bound) a := by
  intro hin
  refine h.ofKind (Store.kind_emptiesIn X) (h'.given hs).sound (fun _ _ hd => hd.drawn hX hin)
    (hs.sound.form_extends h'.later.grown ht) (fun _ v hv => ?_) (fun _ v hv => ?_) fun _ => ?_
  · exact hin v (Or.inr (hs.infers hv))
  · exact hin v (Or.inr (hs.params hv))
  · exact hin t (.inl rfl)

omit ht hrep in
/-- An answer is remembered in the end. -/
theorem tracks_remember {s' : State} (h' : Tracks bound s s') {a : TypeId}
    (h : DrawnFrom bound s t a s') :
    Tracks bound s ({ s'.1 with memo := s'.1.memo.insert t a }, s'.2) ∧
      DrawnFrom bound s t a ({ s'.1 with memo := s'.1.memo.insert t a }, s'.2) := by
  have hs' := h'.given hs
  have hgiven : Given bound ({ s'.1 with memo := s'.1.memo.insert t a }, s'.2) := by
    refine { hs' with memo := fun {u b} hm => ?_ }
    rw [Dict.get?_insert] at hm
    split at hm
    · rename_i he
      cases hm
      exact ⟨he ▸ h.source, h.answer⟩
    · exact hs'.memo hm
  refine ⟨⟨h'.later, fun _ => hgiven, fun _ X hX u b hm => ?_⟩, { h with given := hgiven }⟩
  rw [Dict.get?_insert] at hm
  split at hm
  · rename_i he
    cases hm
    exact he ▸ h.drawn hX
  · exact h'.traces hs X hX u b hm

theorem drawn_rebuildInterned : Leads (Tracks bound)
    (rebuild replace t >>= fun rebuilt => remember t rebuilt >>= fun _ => pure rebuilt) s
    (DrawnFrom bound s t) := by
  refine (drawn_rebuild hs ht hrep).andThen fun a s' h' ha => ?_
  have hs' := h'.given hs
  have hlt : t < s'.2.size := Nat.lt_of_lt_of_le ht h'.later.grown.size
  have hvalid : a < s'.2.size := by
    refine ha.ofKind Store.kind_valid hs'.sound (fun _ _ hd => hd.answer)
      (hs.sound.form_extends h'.later.grown ht) (fun _ v hv => ?_) (fun _ v hv => ?_) fun _ => hlt
    · exact hs'.valid (hs.infers hv)
    · exact hs'.valid (hs.params hv)
  exact tracks_remember hs h' ⟨hs', hlt, hvalid, fun hX => ha.drawn hs ht h' hX⟩

def opened (s : State) (t : TypeId) : State :=
  ({ s.1 with memo := s.1.memo.insert t s.2.size }, (Action.run Store.reserve s.2).2)

omit hs ht hrep in
theorem run_openReserved (replace : TypeId → SubstM TypeId) (t : TypeId) (s : State) :
    Action.run (Rules.openReserved replace t) s =
      ((s.2.size, (Action.run (rebuild replace t) (opened s t)).1),
        (Action.run (rebuild replace t) (opened s t)).2) :=
  rfl

omit hrep in
theorem given_opened : Given bound (opened s t) := by
  obtain ⟨hlater, _, hcell⟩ := Store.leads_reserve hs.sound
  refine { hs.grown hlater with memo := fun {u b} hm => ?_ }
  change (s.1.memo.insert t s.2.size).get? u = some b at hm
  rw [Dict.get?_insert] at hm
  split at hm
  · rename_i he
    cases hm
    subst he
    exact ⟨Nat.lt_of_lt_of_le ht hlater.grown.size, (List.getElem?_eq_some_iff.mp hcell).1⟩
  · exact (hs.grown hlater).memo hm

omit ht hrep in
/-- The fresh placeholder may be reached, or its original is not within the set. -/
theorem traces_opened {X Y : TypeId → Prop} (hX : Traces bound X s)
    (hXY : ∀ v < s.2.size, X v ↔ Y v)
    (hu : Drawn Y (opened s t).2 (insert t bound) s.2.size) : Traces bound Y (opened s t) := by
  obtain ⟨hlater, _⟩ := Store.leads_reserve hs.sound
  intro v b hm
  change (s.1.memo.insert t s.2.size).get? v = some b at hm
  rw [Dict.get?_insert] at hm
  split at hm
  · rename_i he
    cases hm
    exact he ▸ hu
  · exact ((hX v b hm).congr hs.sound hXY).later hs.sound hlater.grown (hs.source_lt (hs.memo hm).1)

omit hrep in
/-- The fresh placeholder is given a body that is drawn from the original. It led nowhere, and now
leads where the original does. -/
theorem traces_filled {s₂ : State} (h₂ : Tracks bound (opened s t) s₂) {body : Node}
    (hcell : s₂.2.cells[s.2.size]? = some (.reserved none)) (hk : body.isContainer = true)
    (hw : (s₂.2.filled s.2.size body).WellFormed)
    (hbody : ∀ X, Traces bound X (opened s t) → (∀ v ∈ insert t bound, EmptiesIn X s₂.2 v) →
      ∀ c ∈ (s₂.2.form body).mentions, EmptiesIn X s₂.2 c)
    {X : TypeId → Prop} (hX : Traces bound X s) : Traces bound X (s₂.1, s₂.2.filled s.2.size body) ∧
      Drawn X (s₂.2.filled s.2.size body) (insert t bound) s.2.size := by
  obtain ⟨hreserve, _, hempty⟩ := Store.leads_reserve hs.sound
  have hs₁ := given_opened hs ht
  have hw₂ := (h₂.given hs₁).sound
  have hgrown : s.2.Extends s₂.2 := hreserve.grown.trans h₂.later.grown
  -- With the fresh placeholder among what may be reached.
  have hmore : Traces bound (fun v => X v ∨ v = s.2.size) (opened s t) :=
    traces_opened hs hX (fun _ => Store.iff_or_of_lt) fun _ =>
      Store.emptiesIn_empty hempty (.inr rfl)
  have hparts (hin : ∀ v ∈ insert t bound, EmptiesIn X s.2 v) :
      ∀ c ∈ (s₂.2.form body).mentions, EmptiesIn (fun v => X v ∨ v = s.2.size) s₂.2 c :=
    hbody _ hmore fun v hv => (Store.kind_emptiesIn _).later hs.sound hgrown
      ((hin v hv).mono hs.sound fun _ _ => .inl)
  constructor
  · intro v b hm
    refine (h₂.traces hs₁ _ hmore v b hm).filled hcell hw₂ hk hw ?_
    by_cases hin : ∀ v ∈ insert t bound, EmptiesIn X s.2 v
    · exact .inl (hparts hin)
    · refine .inr (h₂.traces hs₁ _ (traces_opened hs hX (fun _ => Store.iff_and_of_lt)
        fun hin' => absurd (fun v hv => ?_) hin) v b hm)
      have hlt := hs.source_lt ht v hv
      exact ((Store.emptiesIn_extends hs.sound hreserve.grown hlt).mp (hin' v hv)).mono hs.sound
        fun _ _ h => h.1
  · intro hin
    refine EmptiesIn.closed hcell hw₂ hk (hparts fun v hv => ?_)
      (Store.emptiesIn_empty hcell (.inr rfl))
    exact (Store.emptiesIn_extends hs.sound (hgrown.filled hcell (Nat.le_refl _))
      (hs.source_lt ht v hv)).mp
      (hin v hv)

/-- A placeholder is rebuilt through a fresh one. -/
theorem drawn_rebuildReserved (hres : s.2.isReserved t = true) {f : Form}
    (hf : s.2.form? t = some f) :
    Leads (Tracks bound) (rebuildReserved replace t) s (DrawnFrom bound s t) := by
  obtain ⟨hreserve, _, hcell⟩ := Store.leads_reserve hs.sound
  have hs₁ : Given bound (opened s t) := given_opened hs ht
  have ht₁ : t < (opened s t).2.size := Nat.lt_of_lt_of_le ht hreserve.grown.size
  obtain ⟨h₂, hrebuilt⟩ := drawn_rebuild hs₁ ht₁ hrep
  rw [Leads, Rules.rebuildReserved_eq, Action.run_bind, run_openReserved]
  generalize Action.run (rebuild replace t) (opened s t) = r at h₂ hrebuilt
  obtain ⟨a, s₂⟩ := r
  dsimp only at h₂ hrebuilt ⊢
  have hs₂ := h₂.given hs₁
  have hcell₂ : s₂.2.cells[s.2.size]? = some (.reserved none) :=
    (h₂.later.grown.cell (List.getElem?_eq_some_iff.mp hcell).1).trans hcell
  have hform : (opened s t).2.form? t = some f :=
    (hs.sound.form_extends hreserve.grown ht).trans hf
  rw [hform] at hrebuilt
  obtain ⟨y, hlike, hmade, hy⟩ := hrebuilt.container hs₂.sound.indexed
    (hs.sound.form_reserved hres hf)
  obtain ⟨body, hbody, rfl⟩ := Store.lookup_of_form hmade.form
  have hk : body.isContainer = true := Store.form_isContainer s₂.2 body ▸ hy
  have hw := hs₂.sound.copied hcell₂ hk hbody
  have hlater : Later s.2 (s₂.2.filled s.2.size body) :=
    ⟨(hreserve.grown.trans h₂.later.grown).filled hcell₂ (Nat.le_refl _), fun _ => hw⟩
  have hfilled {X : TypeId → Prop} (hX : Traces bound X s) :=
    traces_filled hs ht h₂ hcell₂ hk hw (fun X hX hin =>
      hlike.ofKind (Store.kind_emptiesIn X) hs₂.sound
      fun _ _ hd => hd.drawn hX hin) hX
  rw [Rules.run_closeReserved hcell₂, hbody, Option.getD_some]
  exact ⟨⟨hlater, fun _ => hs₂.filled hw, fun _ _ hX => (hfilled hX).1⟩, hs₂.filled hw,
    Nat.lt_of_lt_of_le ht hlater.grown.size, Store.lt_size_filled hcell₂, fun hX => (hfilled hX).2⟩

/-- One level of the walk. -/
theorem drawn_step : Leads (Tracks bound) (step replace t) s (DrawnFrom bound s t) := by
  have hsame (s' : State) (hs' : Given bound s') (hst : s'.2 = s.2) : DrawnFrom bound s t t s' :=
    ⟨hs', hst ▸ ht, hst ▸ ht, fun _ hin => hin t (.inl rfl)⟩
  unfold step
  split
  · exact Leads.pure (hsame s hs rfl)
  · refine leads_get ?_
    split
    · rename_i a hm
      exact Leads.pure ⟨hs, ht, (hs.memo hm).2, fun hX => hX t a hm⟩
    · refine leads_getStore ?_
      split
      · rename_i hyes
        refine leads_visit (fun g _ => ?_) (fun g _ _ => ?_) (fun g _ _ => ?_)
        · have hs₁ : Given bound ({ s.1 with guard := g }, s.2) := { hs with }
          have hany : Leads (Tracks bound) (rebuildAny replace t) ({ s.1 with guard := g }, s.2)
              (DrawnFrom bound s t) := by
            unfold rebuildAny
            refine leads_getStore ?_
            split
            · rename_i hres
              obtain ⟨f, hf⟩ : ∃ f, s.2.form? t = some f := by
                refine Option.ne_none_iff_exists'.mp fun hf => ?_
                have hunbound : s.2.Unbound s.1.params t := Store.unbound_of_form hf
                have hno := (Store.containsBound_eq_false hs.sound.founded).mpr hunbound
                exact Bool.false_ne_true (hno.symm.trans hyes)
              exact (drawn_rebuildReserved hs₁ ht hrep hres hf).mono fun _ _ _ h => { h with }
            · exact (drawn_rebuildInterned hs₁ ht hrep).mono fun _ _ _ h => { h with }
          obtain ⟨h', ha⟩ := hany
          exact ⟨⟨h'.later, fun hs => { h'.given { hs with } with },
            fun hs => h'.traces { hs with }⟩,
            { ha with given := { ha.given with } }⟩
        · exact ⟨⟨Evolution.refl _, fun hs => { hs with }, fun _ _ => id⟩, hsame _ { hs with } rfl⟩
        · refine ⟨⟨Evolution.refl _, fun hs => { hs with }, fun _ _ => id⟩, { hs with }, ht, ?_, ?_⟩
          · exact Store.never_lt_size hs.sound
          · exact fun _ _ => (Store.kind_emptiesIn _).intrinsic .never hs.sound
      · exact tracks_remember hs (Evolution.refl s) (hsame s hs rfl)

end Level

/-- A substitution answers with what is drawn from the type that it is given. -/
theorem drawn_apply (hs : Given bound s) (ht : t < s.2.size) :
    Leads (Tracks bound) (apply t) s (DrawnFrom bound s t) := by
  unfold apply
  refine leads_get (descend_induction (motive := fun replace => ∀ s t, Given bound s →
    t < s.2.size →
    Leads (Tracks bound) (replace t) s (DrawnFrom bound s t)) (fun s t hs ht => ?_)
    (fun replace hrep s t hs ht => drawn_step hs ht hrep) _ s t hs ht)
  exact Leads.pure ⟨hs, ht, Store.never_lt_size hs.sound,
    fun _ _ => (Store.kind_emptiesIn _).intrinsic .never hs.sound⟩

/-- One type with its variables replaced by types that reach empty placeholders of a set only. -/
theorem drawn_applyOnce {X : TypeId → Prop} {first : Substitution} {st : Store} (hw : st.WellFormed)
    (hm : first.memo = .empty) (hinfers : first.infers.AreOf (EmptiesIn X) st)
    (hparams : first.params.AreOf (EmptiesIn X) st) (ht : EmptiesIn X st t) :
    Leads Later (first.applyOnce t) st fun a st' => EmptiesIn X st' a := by
  have hs : Given {v | EmptiesIn X st v} (first, st) :=
    { sound := hw
      valid := And.left
      infers := hinfers _ _
      params := hparams _ _
      memo := fun h => by rw [hm] at h; cases h }
  obtain ⟨htracks, ha⟩ := drawn_apply hs ht.1
  have hnone : Traces {v | EmptiesIn X st v} X (first, st) := fun _ _ h => by rw [hm] at h; cases h
  refine leads_run htracks.later (ha.drawn hnone fun v hv => ?_)
  refine (Store.kind_emptiesIn X).later hw htracks.later.grown ?_
  rcases hv with rfl | hv
  · exact ht
  · exact hv

end TypeCalculus.Substitution
