import TypeCalculus.Proofs.Empties
import TypeCalculus.Proofs.Mapping

namespace TypeCalculus

open Store (Later EmptiesIn Drawn kind_emptiesIn)

def Conditional.types (c : Conditional) : List TypeId := [c.pattern, c.yes, c.no]

namespace Store

def parts (st : Store) : Operator → List TypeId
  | .conditional id => (st.conditional id).types
  | .mapping id =>
    match (st.mapping id).value with
    | .conditional c => (st.conditional c).types
    | _ => []

def sources (st : Store) (task : Task) : Set TypeId :=
  insert task.subject {t | t ∈ st.parts task.operator}

/-- A mapping is made of what its conditional is made of. -/
theorem mem_parts_mapping {st : Store} {id : MappingId} {t : TypeId} :
    t ∈ st.parts (.mapping id) ↔
      ∃ c, (st.mapping id).value = .conditional c ∧ t ∈ (st.conditional c).types := by
  cases hv : (st.mapping id).value <;> simp [parts, hv]

section Extends

variable {st st' : Store} (he : st.Extends st')

include he

/-- A conditional that is yet to come is made of `never`. -/
theorem mem_types_extends {id : ConditionalId} {t : TypeId} (ht : t ∈ (st.conditional id).types) :
    t = .never ∨ t ∈ (st'.conditional id).types := by
  unfold Store.conditional at ht ⊢
  cases hc : st.conditionals.get? id with
  | none =>
    rw [hc] at ht
    simp only [Conditional.types, Option.getD_none, List.mem_cons, List.not_mem_nil,
      or_false, or_self] at ht
    exact .inl ht
  | some c =>
    rw [hc] at ht
    rw [he.conditionals.get? hc]
    exact .inr ht

theorem mapping_extends {id : MappingId} (h : (st.mapping id).value ≠ .keep) :
    st'.mapping id = st.mapping id := by
  unfold Store.mapping at h ⊢
  cases hm : st.mappings.get? id with
  | none =>
    rw [hm] at h
    exact absurd rfl h
  | some m => rw [he.mappings.get? hm]

/-- An operator stays made of the same types, or turns out to be made of them. -/
theorem mem_parts_extends {operator : Operator} {t : TypeId} (ht : t ∈ st.parts operator) :
    t = .never ∨ t ∈ st'.parts operator := by
  cases operator with
  | conditional id => exact mem_types_extends he ht
  | mapping id =>
    obtain ⟨c, hv, ht⟩ := mem_parts_mapping.mp ht
    refine (mem_types_extends he ht).imp_right fun ht => mem_parts_mapping.mpr ⟨c, ?_, ht⟩
    rw [mapping_extends he (by simp [hv]), hv]

variable {X : TypeId → Prop} (hw : st.WellFormed) {task : Task} (hlt : task.subject < st.size)

omit he in
theorem WellFormed.part_lt (hw : st.WellFormed) {operator : Operator} {t : TypeId}
    (ht : t ∈ st.parts operator) : t < st.size := by
  have hconditional (id : ConditionalId) : ∀ t ∈ (st.conditional id).types, t < st.size := by
    obtain ⟨hpattern, hyes, hno⟩ := hw.conditional_lt_size id
    simp only [Conditional.types, List.mem_cons, List.not_mem_nil, or_false,
      forall_eq_or_imp, forall_eq]
    exact ⟨hpattern, hyes, hno⟩
  cases operator with
  | conditional id => exact hconditional id t ht
  | mapping id =>
    obtain ⟨c, _, ht⟩ := mem_parts_mapping.mp ht
    exact hconditional c t ht

omit he in
theorem WellFormed.source_lt (hw : st.WellFormed) (hlt : task.subject < st.size) :
    ∀ t ∈ st.sources task, t < st.size := by
  rintro t (rfl | ht)
  · exact hlt
  · exact hw.part_lt ht

include hw hlt

/-- The sources of a task can only become more. -/
theorem emptiesIn_sources (h : ∀ t ∈ st'.sources task, EmptiesIn X st' t) :
    ∀ t ∈ st.sources task, EmptiesIn X st t := by
  intro t ht
  have hvalid := hw.source_lt hlt t ht
  rcases ht with rfl | ht
  · exact (emptiesIn_extends hw he hvalid).mp (h _ (.inl rfl))
  · rcases mem_parts_extends he ht with rfl | ht
    · exact (kind_emptiesIn X).intrinsic .never hw
    · exact (emptiesIn_extends hw he hvalid).mp (h t (.inr ht))

theorem drawn_extends {a : TypeId} (h : Drawn X st (st.sources task) a) :
    Drawn X st' (st'.sources task) a :=
  fun hin => (kind_emptiesIn X).later hw he (h (emptiesIn_sources he hw hlt hin))

end Extends

end Store

namespace Evaluator

variable {X Y : TypeId → Prop} {s s' : State} {task : Task}

structure Stocked (s : State) : Prop where
  sound : s.2.WellFormed
  subject {task : Task} {progress : Progress} : s.1.memo.get? task = some progress →
    task.subject < s.2.size
  type {task : Task} {progress : Progress} {t : TypeId} : s.1.memo.get? task = some progress →
    progress.type? = some t → t < s.2.size

def Lent (X : TypeId → Prop) (s : State) : Prop :=
  ∀ task p, s.1.memo.get? task = some (.running (some p) true) →
    EmptiesIn X s.2 task.subject → EmptiesIn X s.2 p

def Done (X : TypeId → Prop) (s : State) : Prop :=
  ∀ task a, s.1.memo.get? task = some (.done a) → Drawn X s.2 (s.2.sources task) a

/-- The tasks that run are the same, and what was remembered meanwhile is drawn from what it is
about, as far as the placeholders are that were lent. -/
structure Secures (s s' : State) : Prop where
  later : Later s.2 s'.2
  running {task : Task} {p : Option TypeId} {r : Bool} :
    s.1.memo.get? task = some (.running p r) → ∃ r',
    s'.1.memo.get? task = some (.running p (r || r'))
  begun {task : Task} {p : Option TypeId} {r : Bool} :
    s'.1.memo.get? task = some (.running p r) → ∃ r', s.1.memo.get? task = some (.running p r')
  stocked : Stocked s → Stocked s'
  done : Stocked s → ∀ X, Lent X s' → Done X s → Done X s'

/-- An answer to a task that is drawn from what the task is about, as far as the placeholders are
that were lent and what was remembered in an earlier state. -/
structure Sourced (s₀ : State) (task : Task) (a : TypeId) (s : State) : Prop where
  stocked : Stocked s
  subject : task.subject < s.2.size
  answer : a < s.2.size
  drawn {X : TypeId → Prop} : Lent X s → Done X s₀ → Drawn X s.2 (s.2.sources task) a

/-- What was lent before goes on being drawn from its subject. -/
theorem Secures.lent (h : Secures s s') (hs : Stocked s) (hl : Lent X s') : Lent X s := by
  intro task p hm hin
  obtain ⟨r', hm'⟩ := h.running hm
  have hp := hl task p hm' ((kind_emptiesIn X).later hs.sound h.later.grown hin)
  exact (Store.emptiesIn_extends hs.sound h.later.grown (hs.type hm rfl)).mp hp

instance : Evolution Secures where
  refl _ := ⟨Evolution.refl _, fun {_ _ r} h => ⟨false, by rwa [Bool.or_false]⟩,
    fun h => ⟨_, h⟩, id,
    fun _ _ _ => id⟩
  trans {a b c} h h' := by
    refine ⟨Evolution.trans h.later h'.later, fun hr => ?_, fun hr => ?_,
      fun hs => h'.stocked (h.stocked hs),
      fun hs X hl hd => ?_⟩
    · obtain ⟨r₁, hr₁⟩ := h.running hr
      obtain ⟨r₂, hr₂⟩ := h'.running hr₁
      exact ⟨r₁ || r₂, by rwa [← Bool.or_assoc]⟩
    · obtain ⟨r₁, hr₁⟩ := h'.begun hr
      exact h.begun hr₁
    · have hs' := h.stocked hs
      exact h'.done hs' X hl (h.done hs X (h'.lent hs' hl) hd)

theorem Stocked.store {st' : Store} (hs : Stocked s) (h : Later s.2 st') : Stocked (s.1, st') where
  sound := h.sound hs.sound
  subject hm := Nat.lt_of_lt_of_le (hs.subject hm) h.grown.size
  type hm ht := Nat.lt_of_lt_of_le (hs.type hm ht) h.grown.size

theorem Stocked.filled {u : TypeId} {body : Node} (hs : Stocked s)
    (hw : (s.2.filled u body).WellFormed) : Stocked (s.1, s.2.filled u body) where
  sound := hw
  subject hm := Store.filled_lt (hs.subject hm)
  type hm ht := Store.filled_lt (hs.type hm ht)

theorem Stocked.insert (hs : Stocked s) {progress : Progress} {g : Guard Task}
    (hlt : task.subject < s.2.size) (h : ∀ t, progress.type? = some t → t < s.2.size) :
    Stocked ({ s.1 with guard := g, memo := s.1.memo.insert task progress }, s.2) where
  sound := hs.sound
  subject hm := by
    rw [Dict.get?_insert] at hm
    split at hm
    · rename_i he
      exact he ▸ hlt
    · exact hs.subject hm
  type hm ht := by
    rw [Dict.get?_insert] at hm
    split at hm
    · cases hm
      exact h _ ht
    · exact hs.type hm ht

theorem Secures.store {st' : Store} (h : Later s.2 st') : Secures s (s.1, st') where
  later := h
  running {_ _ r} hm := ⟨false, by rwa [Bool.or_false]⟩
  begun hm := ⟨_, hm⟩
  stocked hs := hs.store h
  done hs _ _ hd task a hm := Store.drawn_extends h.grown hs.sound (hs.subject hm) (hd task a hm)

/-- The memo and the store are all that matters. -/
theorem Secures.same (hm : s'.1.memo = s.1.memo) (hst : s'.2 = s.2) : Secures s s' := by
  obtain ⟨e, st⟩ := s
  obtain ⟨e', st'⟩ := s'
  dsimp only at hm hst
  subst hst
  refine ⟨Evolution.refl _, fun {_ _ r} h => ⟨false, ?_⟩, fun {_ _ r} h => ⟨r, ?_⟩, fun hs => ?_,
    fun _ X _ hd task a h => ?_⟩
  · rw [Bool.or_false]
    exact hm ▸ h
  · exact hm ▸ h
  · exact ⟨hs.sound, fun h => hs.subject (hm ▸ h), fun h => hs.type (hm ▸ h)⟩
  · exact hd task a (hm ▸ h)

namespace Sourced

variable {s₀ : State} {a : TypeId}

/-- That the answer is a type of the store follows, as any placeholder may be reached by now. -/
theorem ofDrawn (hs₀ : Stocked s₀) (hs : Stocked s) (hlt : task.subject < s.2.size)
    (h : ∀ X, Lent X s → Done X s₀ → Drawn X s.2 (s.2.sources task) a) : Sourced s₀ task a s where
  stocked := hs
  subject := hlt
  answer := by
    have hany {st : Store} {t : TypeId} (ht : t < st.size) : EmptiesIn (fun _ => True) st t :=
      ⟨ht, fun _ _ _ => trivial⟩
    refine (h (fun _ => True) (fun _ _ hm _ => hany (hs.type hm rfl))
      (fun _ _ hm _ => hany (hs₀.type hm rfl)) fun t ht => hany (hs.sound.source_lt hlt t ht)).1
  drawn := h _

theorem later (h : Sourced s₀ task a s) (hs : Secures s s') : Sourced s₀ task a s' where
  stocked := hs.stocked h.stocked
  subject := Nat.lt_of_lt_of_le h.subject hs.later.grown.size
  answer := Nat.lt_of_lt_of_le h.answer hs.later.grown.size
  drawn hl hd := Store.drawn_extends hs.later.grown h.stocked.sound h.subject
    (h.drawn (hs.lent h.stocked hl) hd)

theorem never (hs : Stocked s) (hlt : task.subject < s.2.size) : Sourced s₀ task .never s where
  stocked := hs
  subject := hlt
  answer := Store.never_lt_size hs.sound
  drawn _ _ _ := (kind_emptiesIn _).intrinsic .never hs.sound

/-- The answer to a task that is about no more than another is an answer to that one. -/
theorem widen {other : Task} (hs₀ : Stocked s₀) {s₁ : State} (h₁ : Secures s₀ s₁)
    (h₂ : Secures s₁ s) (h : Sourced s₁ task a s) (hlt : other.subject < s₀.2.size)
    (hin : ∀ X, (∀ t ∈ s.2.sources other, EmptiesIn X s.2 t) →
      ∀ t ∈ s.2.sources task, EmptiesIn X s.2 t) :
    Sourced s₀ other a s where
  stocked := h.stocked
  subject := Nat.lt_of_lt_of_le hlt (Evolution.trans h₁ h₂).later.grown.size
  answer := h.answer
  drawn {X} hl hd hother := by
    have hs₁ := h₁.stocked hs₀
    exact h.drawn hl (h₁.done hs₀ X (h₂.lent hs₁ hl) hd) (hin X hother)

end Sourced

section Memo

def ComesTo (s : State) (task : Task) (g : Guard Task) (compute : EvalM TypeId) : Prop :=
  let r := Action.run compute (begun s task g)
  Secures s (finished r.2 task r.1) ∧ Sourced s task r.1 (finished r.2 task r.1)

theorem comesTo_getStore {g : Guard Task} {f : Store → EvalM TypeId}
    (h : ComesTo s task g (f s.2)) : ComesTo s task g (getThe Store >>= f) :=
  h

theorem secures_again {p : TypeId} {r : Bool}
    (hm : s.1.memo.get? task = some (.running (some p) r)) :
    Secures s ({ s.1 with memo := s.1.memo.insert task (.running (some p) true) }, s.2) := by
  refine ⟨Evolution.refl _, fun {other q b} hq => ?_, fun {other q b} hq => ?_, fun hs => ?_,
    fun _ X _ hd other a ha => ?_⟩
  · rw [Dict.get?_insert]
    split
    · rename_i he
      rw [he, hm] at hq
      cases hq
      exact ⟨true, by rw [Bool.or_true]⟩
    · exact ⟨false, by rwa [Bool.or_false]⟩
  · rw [Dict.get?_insert] at hq
    split at hq
    · rename_i he
      cases hq
      exact ⟨r, he ▸ hm⟩
    · exact ⟨b, hq⟩
  · exact hs.insert (hs.subject hm) fun t ht => hs.type hm ht
  · rw [Dict.get?_insert] at ha
    split at ha
    · cases ha
    · exact hd other a ha

theorem memo_finished {st : Store} {a : TypeId} {other : Task} (hne : other ≠ task) :
    (finished (s.1, st) task a).1.memo.get? other = s.1.memo.get? other := by
  rw [Dict.get?_insert, if_neg hne]

/-- A task that was not known is worked out and remembered. In the meantime, it alone runs in
addition; `s₁` is the state in which its work begins, and `s₂` the one in which it ends. -/
theorem secures_finished {s₁ s₂ : State} {st : Store} {a : TypeId} (hm : s.1.memo.get? task = none)
    (hlt : task.subject < s.2.size)
    (hother : ∀ other ≠ task, s₁.1.memo.get? other = s.1.memo.get? other) (h : Secures s₁ s₂)
    (hlater : Later s.2 st) (hs : Stocked (s₂.1, st)) (ha : a < st.size)
    (done : ∀ X, Lent X (finished (s₂.1, st) task a) → Done X s →
      Done X (s₂.1, st) ∧ Drawn X st (st.sources task) a) :
    Secures s (finished (s₂.1, st) task a) ∧ Sourced s task a (finished (s₂.1, st) task a) := by
  have hlt' : task.subject < st.size := Nat.lt_of_lt_of_le hlt hlater.grown.size
  have hstocked : Stocked (finished (s₂.1, st) task a) :=
    hs.insert hlt' fun t ht => Option.some.inj ht ▸ ha
  refine ⟨⟨hlater, fun {other p r} hr => ?_, fun {other p r} hr => ?_, fun _ => hstocked,
    fun _ X hl hd other b hb => ?_⟩, hstocked, hlt', ha, fun hl hd => (done _ hl hd).2⟩
  · have hne : other ≠ task := by
      rintro rfl
      rw [hm] at hr
      cases hr
    rw [memo_finished hne]
    exact h.running ((hother other hne).trans hr)
  · rw [Dict.get?_insert] at hr
    split at hr
    · cases hr
    · rename_i hne
      rw [← hother other hne]
      exact h.begun hr
  · rw [Dict.get?_insert] at hb
    split at hb
    · rename_i he
      cases hb
      exact he ▸ (done X hl hd).2
    · exact (done X hl hd).1 other b hb

/-- All that asking for an answer comes to. -/
theorem sourced_memoized {compute : EvalM TypeId} (hs : Stocked s) (hlt : task.subject < s.2.size)
    (hc : ∀ s₀ : State, s₀.2 = s.2 → Stocked s₀ → s₀.1.memo.get? task = none →
      ∀ g, ComesTo s₀ task g compute) :
    Leads Secures (memoized task compute) s (Sourced s task) := by
  refine leads_memoized (.same rfl rfl) ?_
  have hs₀ : Stocked (asked s task) := { hs with }
  refine leads_retrieve (fun a h => ?_) (fun r h => ?_) (fun p r h => ?_) (fun h g _ _ => ?_)
    (fun h g _ => ?_)
  · exact ⟨Evolution.refl _, hs₀, hlt, hs.type h rfl, fun _ hd => hd task a h⟩
  · exact ⟨Evolution.refl _, .never hs₀ hlt⟩
  · have hsecures := secures_again h
    refine ⟨hsecures, hsecures.stocked hs₀, hlt, hs.type h rfl, fun {X} hl _ hin => ?_⟩
    exact hl task p (by rw [Dict.get?_insert, if_pos rfl]) (hin _ (.inl rfl))
  · exact ⟨.same rfl rfl, .never { hs with } hlt⟩
  · obtain ⟨hsecures, ha⟩ := hc (asked s task) rfl hs₀ h g
    exact ⟨hsecures, { ha with }⟩

/-- A computation that needs no placeholder. -/
theorem comesTo_of_sourced {compute : EvalM TypeId} {g : Guard Task} (hs : Stocked s)
    (hm : s.1.memo.get? task = none) (hlt : task.subject < s.2.size)
    (h : Leads Secures compute (begun s task g) (Sourced (begun s task g) task)) :
    ComesTo s task g compute := by
  obtain ⟨hsecures, ha⟩ := h
  unfold ComesTo
  generalize Action.run compute (begun s task g) = r at hsecures ha
  obtain ⟨a, s'⟩ := r
  dsimp only at hsecures ha ⊢
  have hs₁ : Stocked (begun s task g) := hs.insert hlt nofun
  refine secures_finished hm hlt (fun other hne => ?_) hsecures hsecures.later ha.stocked ha.answer
    fun X hl hd => ?_
  · rw [Dict.get?_insert, if_neg hne]
  · have hlent : Lent X s' := by
      intro other p hp hin
      by_cases he : other = task
      · -- The task itself has no placeholder.
        have hown : (begun s task g).1.memo.get? task = some (.running none false) := by
          rw [Dict.get?_insert, if_pos rfl]
        obtain ⟨_, hr⟩ := hsecures.running hown
        rw [he, hr] at hp
        cases hp
      · exact hl other p ((memo_finished he).trans hp) hin
    have hdone : Done X (begun s task g) := by
      intro other b hb
      rw [Dict.get?_insert] at hb
      split at hb
      · cases hb
      · exact hd other b hb
    exact ⟨hsecures.done hs₁ X hlent hdone, ha.drawn hlent hdone⟩

end Memo

section FixedPoint

abbrev lending (s : State) (task : Task) : State :=
  ({ s.1 with memo := s.1.memo.insert task (.running (some s.2.size) false) },
    (Action.run Store.reserve s.2).2)

theorem run_openFixedPoint (s : State) (task : Task) :
    Action.run (openFixedPoint task) s = (⟨⟩, lending s task) :=
  rfl

theorem stocked_lending (hs : Stocked s) (hlt : task.subject < s.2.size) :
    Stocked (lending s task) := by
  obtain ⟨hlater, _, hcell⟩ := Store.leads_reserve hs.sound
  have hstore := hs.store hlater
  exact hstore.insert (g := s.1.guard) (Nat.lt_of_lt_of_le hlt hlater.grown.size) fun t ht =>
    Option.some.inj ht ▸ (List.getElem?_eq_some_iff.mp hcell).1

variable {g : Guard Task} (hs : Stocked s)

include hs

/-- Whether the new placeholder may be reached makes no difference to what is older. -/
theorem done_lending (hXY : ∀ v < s.2.size, X v ↔ Y v) (hd : Done X s) :
    Done Y (lending (begun s task g) task) := by
  obtain ⟨hlater, _⟩ := Store.leads_reserve hs.sound
  intro other a ha
  rw [Dict.get?_insert] at ha
  split at ha
  · cases ha
  · rename_i hne
    rw [Dict.get?_insert, if_neg hne] at ha
    have hold : Drawn Y s.2 (s.2.sources other) a := (hd other a ha).congr hs.sound hXY
    exact Store.drawn_extends hlater.grown hs.sound (hs.subject ha) hold

variable {s₂ : State} (h₂ : Secures (lending (begun s task g) task) s₂)

include h₂

/-- The other placeholders that were lent are older. -/
theorem lent_before {s₃ : State} (hXY : ∀ v < s.2.size, X v ↔ Y v) (h₃ : s.2.Extends s₃.2)
    (hmemo : ∀ other ≠ task, s₃.1.memo.get? other = s₂.1.memo.get? other) (hl : Lent X s₃)
    (hown : s₂.1.memo.get? task = some (.running (some s.2.size) true) →
      EmptiesIn Y s₂.2 task.subject → EmptiesIn Y s₂.2 s.2.size) : Lent Y s₂ := by
  intro other p hp hin
  have hgrown : s.2.Extends s₂.2 := (Store.leads_reserve hs.sound).1.grown.trans h₂.later.grown
  obtain ⟨r, hr⟩ := h₂.begun hp
  rw [Dict.get?_insert] at hr
  split at hr
  · rename_i he
    cases hr
    subst he
    exact hown hp hin
  · rename_i hne
    rw [Dict.get?_insert, if_neg hne] at hr
    have hsubject := hs.subject hr
    have hp' := hs.type hr rfl
    have hinX : EmptiesIn X s.2 other.subject :=
      ((Store.emptiesIn_extends hs.sound hgrown hsubject).mp hin).mono hs.sound
        fun v hv => (hXY v hv).mpr
    have hpX := hl other p ((hmemo other hne).trans hp) ((kind_emptiesIn X).later hs.sound h₃ hinX)
    exact (kind_emptiesIn Y).later hs.sound hgrown
      (((Store.emptiesIn_extends hs.sound h₃ hp').mp hpX).mono hs.sound fun v hv => (hXY v hv).mp)

variable (hlt : task.subject < s.2.size)
variable (halone : ∀ st, s.2.Extends st → st.parts task.operator = [])

include hlt halone

/-- The placeholder is given the body of the answer. It led nowhere, and now leads where the subject
does. -/
theorem done_filled {a : TypeId} {body : Node}
    (ha : Sourced (lending (begun s task g) task) task a s₂)
    (hcell : s₂.2.cells[s.2.size]? = some (.reserved none)) (hb : s₂.2.lookup a = some body)
    (hk : body.isContainer = true) (hw₃ : (s₂.2.filled s.2.size body).WellFormed) {s₃ : State}
    (hst : s₃.2 = s₂.2.filled s.2.size body)
    (hmemo : ∀ other ≠ task, s₃.1.memo.get? other = s₂.1.memo.get? other) (hl : Lent X s₃)
    (hd : Done X s) : Done X (s₂.1, s₂.2.filled s.2.size body) ∧
      Drawn X (s₂.2.filled s.2.size body) ((s₂.2.filled s.2.size body).sources task) s.2.size := by
  have hs₁ : Stocked (lending (begun s task g) task) := stocked_lending (hs.insert hlt nofun) hlt
  have hw₂ := ha.stocked.sound
  have hgrown : s.2.Extends s₂.2 := (Store.leads_reserve hs.sound).1.grown.trans h₂.later.grown
  have hgrown₃ : s.2.Extends (s₂.2.filled s.2.size body) := hgrown.filled hcell (Nat.le_refl _)
  -- With the placeholder among what may be reached.
  have hmore (v : TypeId) (hv : v < s.2.size) : X v ↔ X v ∨ v = s.2.size := Store.iff_or_of_lt hv
  have hlent : Lent (fun v => X v ∨ v = s.2.size) s₂ :=
    lent_before hs h₂ hmore (hst ▸ hgrown₃) hmemo hl fun _ _ =>
      Store.emptiesIn_empty hcell (.inr rfl)
  have hdone : Done (fun v => X v ∨ v = s.2.size) (lending (begun s task g) task) :=
    done_lending hs hmore hd
  have hparts (hin : EmptiesIn X s.2 task.subject) :
      ∀ c ∈ (s₂.2.form body).mentions, EmptiesIn (fun v => X v ∨ v = s.2.size) s₂.2 c := by
    have hanswer : EmptiesIn (fun v => X v ∨ v = s.2.size) s₂.2 a := by
      refine ha.drawn hlent hdone fun t ht => ?_
      rcases ht with rfl | ht
      · exact (kind_emptiesIn _).later hs.sound hgrown
          (hin.mono hs.sound fun v hv => (hmore v hv).mp)
      · change t ∈ s₂.2.parts task.operator at ht
        rw [halone _ hgrown] at ht
        cases ht
    intro c hc
    exact (kind_emptiesIn _).child hw₂ hanswer
      (Store.mentions_of_form (Store.form_of_lookup hb) ▸ hc)
  constructor
  · intro other b hother
    refine (h₂.done hs₁ _ hlent hdone other b hother).filled hcell hw₂ hk hw₃ ?_
    by_cases hin : EmptiesIn X s.2 task.subject
    · exact .inl (hparts hin)
    · -- Nothing that the placeholder may stand for is within the set, so neither is what it was
      -- lent to.
      have hless (v : TypeId) (hv : v < s.2.size) : X v ↔ X v ∧ v ≠ s.2.size :=
        Store.iff_and_of_lt hv
      have hlent' : Lent (fun v => X v ∧ v ≠ s.2.size) s₂ := by
        refine lent_before hs h₂ hless (hst ▸ hgrown₃) hmemo hl fun _ hsubject => absurd ?_ hin
        exact ((Store.emptiesIn_extends hs.sound hgrown hlt).mp hsubject).mono hs.sound
          fun v _ h => h.1
      exact .inr (h₂.done hs₁ _ hlent' (done_lending hs hless hd) other b hother)
  · intro hin
    have hsubject := (Store.emptiesIn_extends hs.sound hgrown₃ hlt).mp (hin _ (.inl rfl))
    exact EmptiesIn.closed hcell hw₂ hk (hparts hsubject) (Store.emptiesIn_empty hcell (.inr rfl))

omit h₂ in
/-- Working through a fixed point. -/
theorem comesTo_throughFixedPoint (hm : s.1.memo.get? task = none) {work : EvalM TypeId}
    (hwork : Leads Secures work (lending (begun s task g) task) fun a s' =>
      Sourced (lending (begun s task g) task) task a s' ∧ (s' = lending (begun s task g) task ∨
        ∃ body, s'.2.lookup a = some body ∧ body.isContainer = true)) :
    ComesTo s task g (openFixedPoint task >>= fun _ => work >>= closeFixedPoint task) := by
  obtain ⟨hreserve, _, hcell⟩ := Store.leads_reserve hs.sound
  obtain ⟨h₂, ha, hbuilt⟩ := hwork
  unfold ComesTo
  rw [Action.run_bind, run_openFixedPoint, Action.run_bind]
  dsimp only
  generalize Action.run work (lending (begun s task g) task) = r at h₂ ha hbuilt
  obtain ⟨a, s₂⟩ := r
  dsimp only at h₂ ha hbuilt ⊢
  have hgrown : s.2.Extends s₂.2 := hreserve.grown.trans h₂.later.grown
  have hcell₂ : s₂.2.cells[s.2.size]? = some (.reserved none) :=
    (h₂.later.grown.cell (List.getElem?_eq_some_iff.mp hcell).1).trans hcell
  have hopened : (lending (begun s task g) task).1.memo.get? task =
      some (.running (some s.2.size) false) := by
    rw [Dict.get?_insert, if_pos rfl]
  have hother (other : Task) (hne : other ≠ task) :
      (lending (begun s task g) task).1.memo.get? other = s.1.memo.get? other := by
    rw [Dict.get?_insert, if_neg hne, Dict.get?_insert, if_neg hne]
  have hs₁ : Stocked (lending (begun s task g) task) := stocked_lending (hs.insert hlt nofun) hlt
  obtain ⟨referenced, hflag⟩ := h₂.running hopened
  cases referenced with
  | false =>
    rw [run_closeFixedPoint_unreferenced hflag]
    refine secures_finished hm hlt hother h₂ ⟨hgrown, fun _ => ha.stocked.sound⟩
      ha.stocked ha.answer
      fun X hl hd => ?_
    have hlent : Lent X s₂ := by
      have hgrown₃ : s.2.Extends (finished s₂ task a).2 := hgrown
      refine lent_before hs h₂ (fun _ _ => Iff.rfl) hgrown₃ (fun _ => memo_finished) hl fun hr => ?_
      cases hflag.symm.trans hr
    have hdone : Done X (lending (begun s task g) task) := done_lending hs (fun _ _ => Iff.rfl) hd
    exact ⟨h₂.done hs₁ X hlent hdone, ha.drawn hlent hdone⟩
  | true =>
    obtain ⟨body, hb, hk⟩ := built_of_handedOut hopened hbuilt hflag
    have hw₃ := ha.stocked.sound.copied hcell₂ hk hb
    rw [run_closeFixedPoint_referenced hflag hcell₂ hb]
    exact secures_finished hm hlt hother h₂ ⟨hgrown.filled hcell₂ (Nat.le_refl _), fun _ => hw₃⟩
      (ha.stocked.filled hw₃) (Store.lt_size_filled hcell₂) fun X hl hd =>
        done_filled hs h₂ hlt halone ha hcell₂ hb hk hw₃ rfl (fun _ => memo_finished) hl hd

end FixedPoint

end Evaluator

end TypeCalculus
