import TypeCalculus.Proofs.OperatorRules
import TypeCalculus.Proofs.SubstitutionSources
import TypeCalculus.Proofs.TaskSources

namespace TypeCalculus.Evaluator

open Store (Later EmptiesIn Drawn kind_emptiesIn)

variable {X : TypeId → Prop} {s s' : State}

theorem Sourced.self (hs : Stocked s) {operator : Operator} {x : TypeId} (hx : x < s.2.size) :
    Sourced s ⟨operator, x⟩ x s :=
  ⟨hs, hx, hx, fun _ _ hin => hin x (.inl rfl)⟩

/-- A part of the subject is no more than the subject. -/
theorem emptiesIn_part {st : Store} (hw : st.WellFormed) {operator : Operator} {subject x : TypeId}
    (hx : x = subject ∨ x ∈ st.mentions subject)
    (h : ∀ t ∈ st.sources ⟨operator, subject⟩, EmptiesIn X st t) :
    ∀ t ∈ st.sources ⟨operator, x⟩, EmptiesIn X st t := by
  rintro t (rfl | ht)
  · rcases hx with hx | hx
    · exact h _ (.inl hx)
    · exact (kind_emptiesIn X).child hw (h subject (.inl rfl)) hx
  · exact h t (.inr ht)

/-- The answer for a part of a subject is drawn from the subject. -/
theorem Sourced.whole {s₁ : State} {operator : Operator} {subject x a : TypeId} (hs : Stocked s)
    (ht : subject < s.2.size) (hx : x = subject ∨ x ∈ s.2.mentions subject) (h₁ : Secures s s₁)
    (h₂ : Secures s₁ s') (h : Sourced s₁ ⟨operator, x⟩ a s') :
    Sourced s ⟨operator, subject⟩ a s' := by
  refine h.widen hs h₁ h₂ ht fun X hin => emptiesIn_part h.stocked.sound ?_ hin
  rw [hs.sound.mentions_extends (Evolution.trans h₁ h₂).later.grown ht]
  exact hx

/-- The union of the answers for the members is drawn from the whole. -/
theorem sourced_distribute {operator : Operator} {subject : TypeId} (hs : Stocked s)
    (ht : subject < s.2.size) {f : TypeId → EvalM TypeId}
    (hf : ∀ s', Stocked s' → ∀ x < s'.2.size, Leads Secures (f x) s' (Sourced s' ⟨operator, x⟩)) :
    Leads Secures (Store.distribute subject f) s (Sourced s ⟨operator, subject⟩) := by
  refine Store.leads_distribute Prod.snd (A := fun _ a s' => Sourced s ⟨operator, subject⟩ a s') rfl
    (fun _ a s₁ s₂ h₁ h₂ h => h.later h₂) (fun x hx s' h' => ?_) (fun _ => .never hs ht)
    (fun _ _ _ _ _ h => h) (fun ys s' h' _ hys => ?_)
  · have hpart := (hs.sound.mem_unionMembers hx).1
    have hlt : x < s.2.size := by
      rcases hpart with rfl | hm
      · exact ht
      · exact (hs.sound.sound subject).inside hm
    exact (hf s' (h'.stocked hs) x (Nat.lt_of_lt_of_le hlt h'.later.grown.size)).mono
      fun a s'' h'' ha => ha.whole hs ht hpart h' h''
  · have hs' := h'.stocked hs
    have hall : ∀ y ∈ ys, Sourced s ⟨operator, subject⟩ y s' := fun y hy => by
      obtain ⟨_, _, h⟩ := mem_right_of_forall₂ hys hy
      exact h
    have hunion := Store.leads_mkUnion hs'.sound fun y hy => (hall y hy).answer
    have h'' : Secures s' (s'.1, (Action.run (Store.mkUnion ys) s'.2).2) := .store hunion.1
    refine leads_lift h'' (.ofDrawn hs (h''.stocked hs')
      (Nat.lt_of_lt_of_le ht (Evolution.trans h' h'').later.grown.size) fun X hl hd hin => ?_)
    refine ((kind_emptiesIn X).leads_mkUnion hs'.sound fun y hy => ?_).2
    have hlt' : subject < s'.2.size := Nat.lt_of_lt_of_le ht h'.later.grown.size
    exact (hall y hy).drawn (h''.lent hs' hl) hd
      (Store.emptiesIn_sources h''.later.grown hs'.sound hlt' hin)

/-- An instance of a branch reaches what the branch, the subject and the bindings reach. -/
theorem drawn_instantiate {st : Store} (hw : st.WellFormed) (c : Conditional)
    {branch subject : TypeId} (hb : EmptiesIn X st branch) {bindings : Bindings}
    (hbind : bindings.AreOf (EmptiesIn X) st) (ht : EmptiesIn X st subject) :
    Leads Later (instantiate c branch bindings subject) st fun a st' => EmptiesIn X st' a := by
  have hempty : Bindings.AreOf (EmptiesIn X) .empty st := nofun
  unfold instantiate
  split
  · exact Substitution.drawn_applyOnce hw rfl hbind (hempty.insert ht) hb
  · exact Substitution.drawn_applyOnce hw rfl hbind hempty hb

theorem sourced_chooseBranch (hs : Stocked s) (id : ConditionalId) {x : TypeId}
    (hx : x < s.2.size) :
    Leads Secures (chooseBranch (s.2.conditional id) x) s (Sourced s ⟨.conditional id, x⟩) := by
  have hw := hs.sound
  have hwithin (X : TypeId → Prop) (hin : ∀ t ∈ s.2.sources ⟨.conditional id, x⟩,
      EmptiesIn X s.2 t) :
      Leads Secures (chooseBranch (s.2.conditional id) x) s fun a s' => EmptiesIn X s'.2 a := by
    have hpart : ∀ t ∈ (s.2.conditional id).types, EmptiesIn X s.2 t := fun t ht => hin t (.inr ht)
    have hsubject := hin x (.inl rfl)
    refine leads_chooseBranch (fun h => h.later) Secures.store
      (.same (kind_emptiesIn X)) hw hsubject
      (hpart _ (by simp [Conditional.types])) fun st hst branch hb bindings hbind => ?_
    have hbranch : branch ∈ (s.2.conditional id).types := List.mem_cons_of_mem _ hb
    exact drawn_instantiate (hst.sound hw) _
      ((kind_emptiesIn X).later hw hst.grown (hpart _ hbranch)) hbind
      ((kind_emptiesIn X).later hw hst.grown hsubject)
  have hsecures := (hwithin (fun _ => True) fun t ht =>
    ⟨hw.source_lt hx t ht, fun _ _ _ => trivial⟩).1
  refine ⟨hsecures, .ofDrawn hs (hsecures.stocked hs)
    (Nat.lt_of_lt_of_le hx hsecures.later.grown.size) fun X _ _ hin => ?_⟩
  exact (hwithin X (Store.emptiesIn_sources hsecures.later.grown hw hx hin)).2

theorem sourced_applyConditional (hs : Stocked s) (id : ConditionalId) {subject : TypeId}
    (ht : subject < s.2.size) :
    Leads Secures (applyConditional id subject) s (Sourced s ⟨.conditional id, subject⟩) := by
  have hmember (s' : State) (hs' : Stocked s') (x : TypeId) (hx : x < s'.2.size) :
      Leads Secures (conditionalMember id x) s' (Sourced s' ⟨.conditional id, x⟩) := by
    unfold conditionalMember
    refine leads_getStore (sourced_memoized hs' hx fun s₀ he hs₀ hm g => ?_)
    have hx₀ : x < s₀.2.size := he ▸ hx
    have hs₁ : Stocked (begun s₀ ⟨.conditional id, x⟩ g) := hs₀.insert hx₀ nofun
    rw [← he]
    exact comesTo_of_sourced hs₀ hm hx₀ (sourced_chooseBranch hs₁ id hx₀)
  unfold applyConditional
  refine leads_getStore ?_
  split
  · exact sourced_distribute hs ht hmember
  · exact hmember s hs subject ht

section Mapping

variable {id : MappingId} {member : TypeId → EvalM TypeId}
variable (hmember : ∀ s, Stocked s → ∀ x < s.2.size,
  Leads Secures (member x) s (Sourced s ⟨.mapping id, x⟩))

include hmember

theorem sourced_mapValue (hs : Stocked s) {st : Store} (he : st.Extends s.2) {value : TypeId}
    (hv : value < s.2.size) :
    Leads Secures (mapValue (st.mapping id) member value) s (Sourced s ⟨.mapping id, value⟩) := by
  unfold mapValue
  split
  · exact Leads.pure (.self hs hv)
  · rename_i c hc
    refine (sourced_applyConditional hs c hv).mono fun a s' h' ha => ?_
    refine ha.widen hs (Evolution.refl s) h' hv fun X hin t ht => ?_
    rcases ht with rfl | ht
    · exact hin _ (.inl rfl)
    · refine hin t (.inr (Store.mem_parts_mapping.mpr ⟨c, ?_, ht⟩))
      rw [Store.mapping_extends (he.trans h'.later.grown) (by simp [hc]), hc]
  · refine sourced_distribute hs hv fun s' hs' x hx => ?_
    rw [mapInner_eq]
    refine leads_getStore ?_
    split
    · exact hmember s' hs' x hx
    · exact Leads.pure (.self hs' hx)

/-- What a mapping makes of a type is drawn from the type and the mapping. -/
theorem sourced_mapStructure (hs : Stocked s) {st : Store} (he : st.Extends s.2) {n : TypeId}
    (hn : n < s.2.size) :
    Leads Secures (mapStructure (st.mapping id) member n) s fun a s' =>
    Sourced s ⟨.mapping id, n⟩ a s' ∧
      (s' = s ∨ ∃ body, s'.2.lookup a = some body ∧ body.isContainer = true) := by
  have hvalues (s' : State) (h' : Secures s s') (c : TypeId) (hc : c ∈ s.2.mentions n) :
      Leads Secures (mapValue (st.mapping id) member c) s' (Sourced s ⟨.mapping id, n⟩) :=
    (sourced_mapValue hmember (h'.stocked hs) (he.trans h'.later.grown)
      (Nat.lt_of_lt_of_le ((hs.sound.sound n).inside hc) h'.later.grown.size)).mono
      fun a s'' h'' ha => ha.whole hs hn (.inr hc) h' h''
  refine (leads_mapMade (R := fun _ a s' => Sourced s ⟨.mapping id, n⟩ a s') (fun h => h.later)
    Secures.store (fun _ _ _ _ h ha => ha.later h) (fun h => h.answer) hs.sound
    hvalues).mono fun a s' h' h => ?_
  rcases h with ⟨f, _, y, hy, hmade⟩ | ⟨_, rfl, rfl⟩
  · obtain ⟨body, hb, rfl⟩ := Store.lookup_of_form hmade.form
    have hk : body.isContainer = true := (Store.form_isContainer _ body).symm.trans hy.container
    have hs' := h'.stocked hs
    refine ⟨.ofDrawn hs hs' (Nat.lt_of_lt_of_le hn h'.later.grown.size) fun X hl hd hin => ?_,
      .inr ⟨body, hb, hk⟩⟩
    refine (kind_emptiesIn X).built hs'.sound hmade.form (fun name hf => ?_) fun c hc => ?_
    · have hinfer := hy.container
      rw [hf] at hinfer
      cases hinfer
    · obtain ⟨_, hx⟩ := hy.mentions hc
      exact hx.drawn hl hd hin
  · exact ⟨.never hs hn, .inl rfl⟩

theorem sourced_mapMember (hs : Stocked s) {n : TypeId} (hn : n < s.2.size) :
    Leads Secures (mapMember id member n) s (Sourced s ⟨.mapping id, n⟩) := by
  refine sourced_memoized hs hn fun s₀ he hs₀ hm g => ?_
  have hn₀ : n < s₀.2.size := he ▸ hn
  have hs₁ : Stocked (begun s₀ ⟨.mapping id, n⟩ g) := hs₀.insert hn₀ nofun
  refine comesTo_getStore ?_
  dsimp only
  split
  · rename_i hdeep
    have hreserve := (Store.leads_reserve hs₀.sound).1.grown
    refine comesTo_throughFixedPoint hs₀ hn₀ (fun st hst => ?_) hm ?_
    · have hmapping : st.mapping id = s₀.2.mapping id := Store.mapping_extends hst (by simp [hdeep])
      simp [Store.parts, hmapping, hdeep]
    · exact sourced_mapStructure hmember (stocked_lending hs₁ hn₀) hreserve
        (Nat.lt_of_lt_of_le hn₀ hreserve.size)
  · exact comesTo_of_sourced hs₀ hm hn₀
      ((sourced_mapStructure hmember hs₁ (.refl _) hn₀).mono fun _ _ _ h => h.1)

omit hmember in
/-- The answer of a mapping is drawn from its subject and from what the mapping is made of. -/
theorem sourced_applyMapping (hs : Stocked s) (id : MappingId) {subject : TypeId}
    (ht : subject < s.2.size) :
    Leads Secures (applyMapping id subject) s (Sourced s ⟨.mapping id, subject⟩) := by
  unfold applyMapping
  refine leads_get (sourced_distribute hs ht (descend_induction (motive := fun f => ∀ s, Stocked s →
    ∀ x < s.2.size, Leads Secures (f x) s (Sourced s ⟨.mapping id, x⟩)) (fun s hs x hx => ?_)
    (fun f hf s hs x hx => sourced_mapMember hf hs hx) _))
  exact Leads.pure (.never hs hx)

end Mapping

structure Rested (s : State) : Prop where
  stocked : Stocked s
  idle (task : Task) : ¬ s.1.Running task
  done (X : TypeId → Prop) : Done X s

theorem Rested.lent (h : Rested s) (X : TypeId → Prop) : Lent X s :=
  fun task _ hm => absurd ⟨_, _, hm⟩ (h.idle task)

theorem Rested.later (h : Rested s) (h' : Secures s s') : Rested s' := by
  have hidle (task : Task) : ¬ s'.1.Running task := by
    rintro ⟨p, r, hm⟩
    obtain ⟨_, hm⟩ := h'.begun hm
    exact h.idle task ⟨_, _, hm⟩
  exact ⟨h'.stocked h.stocked, hidle, fun X =>
    h'.done h.stocked X (fun task _ hm => absurd ⟨_, _, hm⟩ (hidle task)) (h.done X)⟩

/-- Types from which only the empty placeholders of some set can be reached, and operators made of
such. -/
def closedTypes (X : TypeId → Prop) : OperatorRules where
  toBuildRules := .ofKind (kind_emptiesIn X) fun _ => Store.emptiesIn_infer
  Usable st operator := ∀ st', Later st st' → ∀ t ∈ st'.parts operator, EmptiesIn X st' t
  Works := Secures
  Ready := Rested
  progress := inferInstance
  usable _ h ho st' h' := ho st' (Evolution.trans h h')
  conditional {_ c} hw hp hy hn := by
    refine (Store.leads_internConditional hw ⟨hp.1, hy.1, hn.1⟩).mono
      fun id st' h hc st'' h' t ht => ?_
    have hlater := Evolution.trans h h'
    have hsame : st''.conditional id = c := by
      rw [Store.conditional, h'.grown.conditionals.get? hc, Option.getD_some]
    refine (kind_emptiesIn X).later hw hlater.grown ?_
    change t ∈ (st''.conditional id).types at ht
    rw [hsame] at ht
    simp only [Conditional.types, List.mem_cons, List.not_mem_nil, or_false] at ht
    rcases ht with rfl | rfl | rfl
    · exact hp
    · exact hy
    · exact hn
  mapping {_ m} hw hm := by
    refine (Store.leads_internMapping hw m).mono fun id st' h hget st'' h' t ht => ?_
    have hsame : st''.mapping id = m := by
      rw [Store.mapping, h'.grown.mappings.get? hget, Option.getD_some]
    obtain ⟨c, hc, ht⟩ := Store.mem_parts_mapping.mp ht
    rw [hsame] at hc
    exact hm c hc st'' (Evolution.trans h h') t ht
  replaced hw hb ht := Substitution.drawn_applyOnce hw rfl hb nofun ht
  ready hs h := hs.later h
  sound hs := hs.stocked.sound
  evolves _ h := h.later
  lift _ h := .store h
  matched hs ht hp := leads_matches Secures.store (.same (kind_emptiesIn X)) hs.stocked.sound ht hp
  applied {s operator subject} hs ho ht := by
    have hsourced : Leads Secures (applyOperator operator subject) s
        (Sourced s ⟨operator, subject⟩) := by
      cases operator with
      | conditional id => exact sourced_applyConditional hs.stocked id ht.1
      | mapping id => exact sourced_applyMapping hs.stocked id ht.1
    refine hsourced.mono fun a s' h' ha => ?_
    refine ha.drawn ((hs.later h').lent X) (hs.done X) fun t hmem => ?_
    rcases hmem with rfl | hmem
    · exact (kind_emptiesIn X).later hs.stocked.sound h'.later.grown ht
    · exact ho s'.2 h'.later t hmem

end TypeCalculus.Evaluator
