import TypeCalculus.Proofs.BuildRules
import TypeCalculus.Proofs.Mapping

namespace TypeCalculus

/-- How operators may be used. What holds of conditionals and mappings, of matching and of
substitution, is kept while an evaluator works. -/
structure OperatorRules extends BuildRules where
  Usable : Store → Operator → Prop
  /-- How an evaluator may change beside its store. -/
  Works : Evaluator.State → Evaluator.State → Prop
  /-- What is kept of an evaluator between two pieces of work. -/
  Ready : Evaluator.State → Prop
  progress : Evolution Works
  usable {st st' : Store} {operator : Operator} : Good st → Evolves st st' → Usable st operator →
    Usable st' operator
  conditional {st : Store} {c : Conditional} :
    Good st → Fit st c.pattern → Fit st c.yes → Fit st c.no →
    Leads Evolves (Store.internConditional c) st fun id st' => Usable st' (.conditional id)
  mapping {st : Store} {m : Mapping} : Good st →
    (∀ id, m.value = .conditional id → Usable st (.conditional id)) →
    Leads Evolves (Store.internMapping m) st fun id st' => Usable st' (.mapping id)
  replaced {st : Store} {bindings : Bindings} {template : TypeId} : Good st →
    bindings.AreOf Fit st → Fit st template →
    Leads Evolves (Evaluator.replaceInfers bindings template) st fun t st' => Fit st' t
  ready {s s' : Evaluator.State} : Ready s → Works s s' → Ready s'
  sound {s : Evaluator.State} : Ready s → Good s.2
  evolves {s s' : Evaluator.State} : Ready s → Works s s' → Evolves s.2 s'.2
  lift {s : Evaluator.State} {st' : Store} : Ready s → Evolves s.2 st' → Works s (s.1, st')
  matched {s : Evaluator.State} {subject pattern : TypeId} : Ready s → Fit s.2 subject →
    Fit s.2 pattern → Leads Works (Evaluator.matches? subject pattern) s fun found s' =>
      ∀ bindings, found = some bindings → bindings.AreOf Fit s'.2
  applied {s : Evaluator.State} {operator : Operator} {subject : TypeId} : Ready s →
    Usable s.2 operator → Fit s.2 subject →
    Leads Works (Evaluator.applyOperator operator subject) s fun a s' => Fit s'.2 a

namespace Evaluator

variable {r : OperatorRules}

instance : Evolution r.Works := r.progress

section Yields

def Yields (r : OperatorRules) (act : EvalM TypeId) (s : State) : Prop :=
  Leads r.Works act s fun a s' => r.Fit s'.2 a

variable {s : State} (hs : r.Ready s)

include hs

theorem leads_worked {α : Type} {x : StoreM α} {Q : α → Store → Prop}
    (h : Leads r.Evolves x s.2 Q) :
    Leads r.Works (liftM x : EvalM α) s fun a s' => Q a s'.2 :=
  leads_lift (r.lift hs h.1) h.2

theorem fit_after {s' : State} (h : r.Works s s') {t : TypeId} (ht : r.Fit s.2 t) : r.Fit s'.2 t :=
  r.later (r.sound hs) (r.evolves hs h) ht

theorem yields_store {x : StoreM TypeId} (h : r.Gives x s.2) : Yields r (liftM x) s :=
  leads_worked hs h

/-- An operator that builds something first. -/
theorem yields_bind {x : StoreM TypeId} {f : TypeId → EvalM TypeId} (h : r.Gives x s.2)
    (hf : ∀ a s', r.Works s s' → r.Ready s' → r.Fit s'.2 a → Yields r (f a) s') :
    Yields r (liftM x >>= f) s := by
  apply Leads.bind (leads_worked hs h)
  intro a s' h' ha
  exact hf a s' h' (r.ready hs h') ha

/-- A list of actions each of which answers with a type that may be used. -/
theorem leads_yielded {α : Type} {f : α → EvalM TypeId} {xs : List α}
    (hf : ∀ x ∈ xs, ∀ s', r.Works s s' → Yields r (f x) s') :
    Leads r.Works (xs.mapM f) s fun ts s' => ∀ t ∈ ts, r.Fit s'.2 t := by
  have h : Leads r.Works (xs.mapM f) s fun ts s' =>
      List.Forall₂ (fun _ t => r.Fit s'.2 t) xs ts := by
    apply Leads.mapM _ hf
    intro _ t s₁ s₂ h₁ h₂ ht
    exact fit_after (r.ready hs h₁) h₂ ht
  apply h.mono
  intro ts s' _ hts t ht
  obtain ⟨_, _, h⟩ := mem_right_of_forall₂ hts ht
  exact h

/-- An operator that is applied to each member keeps to the rules if it does for one. -/
theorem yields_distribute {subject : TypeId} (ht : r.Fit s.2 subject) {f : TypeId → EvalM TypeId}
    (hf : ∀ s', r.Works s s' → r.Ready s' → ∀ x, r.Fit s'.2 x → Yields r (f x) s') :
    Yields r (Store.distribute subject f) s := by
  apply Store.leads_distribute Prod.snd (A := fun _ a s' => r.Fit s'.2 a) rfl
  · intro _ a s₁ s₂ h₁ h₂ h
    exact fit_after (r.ready hs h₁) h₂ h
  · intro x hx s' h'
    exact hf s' h' (r.ready hs h') x
      (fit_after hs h' (BuildRules.mem_unionMembers (r.sound hs) ht hx))
  · exact fun _ => r.intrinsic (r.sound hs) rfl
  · exact fun _ _ _ _ _ h => h
  · intro ys s' h' _ hys
    have hs' := r.ready hs h'
    apply yields_store hs' (BuildRules.gives_union (r.sound hs') _)
    intro y hy
    obtain ⟨_, _, h⟩ := mem_right_of_forall₂ hys hy
    exact h

theorem yields_choose {c : Conditional} (hp : r.Fit s.2 c.pattern) (hy : r.Fit s.2 c.yes)
    (hn : r.Fit s.2 c.no) {subject : TypeId} (ht : r.Fit s.2 subject) :
    Yields r (choose c subject) s := by
  apply Leads.bind (leads_worked hs (r.conditional (r.sound hs) hp hy hn))
  intro id s' h' hid
  exact r.applied (r.ready hs h') hid (fit_after hs h' ht)

theorem yields_mapWith {m : Mapping}
    (hm : ∀ id, m.value = .conditional id → r.Usable s.2 (.conditional id)) {subject : TypeId}
    (ht : r.Fit s.2 subject) : Yields r (mapWith m subject) s := by
  apply Leads.bind (leads_worked hs (r.mapping (r.sound hs) hm))
  intro id s' h' hid
  exact r.applied (r.ready hs h') hid (fit_after hs h' ht)

variable {subject : TypeId} (ht : r.Fit s.2 subject)

include ht

theorem yields_inferred {pattern infer : TypeId} (hp : r.Fit s.2 pattern) (hi : r.Fit s.2 infer) :
    Yields r (inferred pattern infer subject) s :=
  yields_choose hs hp hi (r.intrinsic (r.sound hs) rfl) ht

theorem yields_exclude {excluded : TypeId} (he : r.Fit s.2 excluded) :
    Yields r (exclude subject excluded) s :=
  yields_bind hs (BuildRules.gives_param (r.sound hs) _) fun _ _ h' hs' hself =>
    yields_choose hs' (fit_after hs h' he) (r.intrinsic (r.sound hs') rfl) hself
      (fit_after hs h' ht)

theorem yields_extract {extracted : TypeId} (he : r.Fit s.2 extracted) :
    Yields r (extract subject extracted) s :=
  yields_bind hs (BuildRules.gives_param (r.sound hs) _) fun _ _ h' hs' hself =>
    yields_choose hs' (fit_after hs h' he) hself (r.intrinsic (r.sound hs') rfl)
      (fit_after hs h' ht)

theorem yields_nonNullable : Yields r (nonNullable subject) s := by
  apply yields_bind hs (BuildRules.gives_union (r.sound hs) _)
  · intro nullish s' h' hs' hn
    exact yields_exclude hs' (fit_after hs h' ht) hn
  · intro t h
    rcases List.mem_pair.mp h with rfl | rfl <;> exact r.intrinsic (r.sound hs) rfl

/-- An operator that infers one variable under a pattern built around it. -/
theorem yields_inferUnder {name : String} {build : TypeId → StoreM TypeId}
    (hb : ∀ st, r.Good st → ∀ t, r.Fit st t → r.Gives (build t) st) :
    Yields r (do
      let u ← Store.mkInfer name
      let pattern ← build u
      inferred pattern u subject) s := by
  apply yields_bind hs (BuildRules.gives_infer (r.sound hs) name)
  intro u s₁ h₁ hs₁ hu
  apply yields_bind hs₁ (hb _ (r.sound hs₁) u hu)
  intro pattern s₂ h₂ hs₂ hp
  exact yields_inferred hs₂ (fit_after hs₁ h₂ (fit_after hs h₁ ht)) hp (fit_after hs₁ h₂ hu)

theorem yields_parameters : Yields r (parameters subject) s :=
  yields_inferUnder hs ht fun _ hg _ hu => BuildRules.gives_restFunction hg hu (r.intrinsic hg rfl)

theorem yields_constructorParameters : Yields r (constructorParameters subject) s :=
  yields_inferUnder hs ht fun _ hg _ hu =>
    BuildRules.gives_restConstructor hg hu (r.intrinsic hg rfl)

theorem yields_returnType : Yields r (returnType subject) s :=
  yields_inferUnder hs ht fun _ hg _ hu => BuildRules.gives_restFunction hg (r.intrinsic hg rfl) hu

theorem yields_instanceType : Yields r (instanceType subject) s :=
  yields_inferUnder hs ht fun _ hg _ hu =>
    BuildRules.gives_restConstructor hg (r.intrinsic hg rfl) hu

theorem yields_inferType : Yields r (inferType subject) s :=
  yields_bind hs (BuildRules.gives_infer (r.sound hs) _) fun _ _ h' hs' hu =>
    yields_inferred hs' (fit_after hs h' ht) hu hu

theorem yields_inferArray : Yields r (inferArray subject) s :=
  yields_inferUnder hs ht fun _ hg _ hu => BuildRules.gives_array hg hu

theorem yields_inferObject : Yields r (inferObject subject) s := by
  apply yields_inferUnder hs ht
  intro st hg u hu
  apply BuildRules.gives hg (.object _)
  · intro c hc
    have hc : c = u := by simpa [Form.mentions, Shape.types] using hc
    exact hc ▸ hu
  · exact fun _ => List.nodup_nil

/-- The wrapper that the pattern is made of has to take as many arguments. -/
theorem yields_inferArgument {kind : Wrapper} {position : Nat}
    (hk : r.Strict → kind.Takes (position + 1)) :
    Yields r (inferArgument kind position subject) s := by
  apply yields_inferUnder hs ht
  intro st hg u hu
  apply BuildRules.gives hg (.wrapper kind _)
  · intro c hc
    rcases List.mem_append.mp hc with hc | hc
    · obtain rfl := List.eq_of_mem_replicate hc
      exact r.intrinsic hg rfl
    · exact List.mem_singleton.mp hc ▸ hu
  · simpa [Form.Admissible] using hk

theorem yields_receiverType : Yields r (receiverType subject) s := by
  apply yields_bind hs (BuildRules.gives_infer (r.sound hs) _)
  intro u s₁ h₁ hs₁ hu
  apply yields_bind hs₁ (BuildRules.gives (r.sound hs₁) (.function _) _ fun _ => trivial)
  · intro p s₂ h₂ hs₂ hp
    exact yields_choose hs₂ hp (fit_after hs₁ h₂ hu) (r.intrinsic (r.sound hs₂) rfl)
      (fit_after hs₁ h₂ (fit_after hs h₁ ht))
  · intro c hc
    simp only [Form.mentions, restParam, Option.toList_some, List.map_cons, List.map_nil,
      List.nil_append, List.cons_append, List.mem_cons, List.not_mem_nil, or_false] at hc
    rcases hc with rfl | rfl | rfl
    · exact hu
    · exact r.intrinsic (r.sound hs₁) rfl
    · exact r.intrinsic (r.sound hs₁) rfl

theorem leads_acceptsAnyReceiver :
    Leads r.Works (acceptsAnyReceiver subject) s fun _ _ => True := by
  apply Leads.bind (yields_receiverType hs ht)
  intro receiver s₁ h₁ hr
  have hs₁ := r.ready hs h₁
  exact (r.matched hs₁ (r.intrinsic (r.sound hs₁) rfl) hr).bind fun _ _ _ _ => Leads.pure trivial

theorem yields_omitReceiver : Yields r (omitReceiver subject) s := by
  apply Leads.bind (leads_acceptsAnyReceiver hs ht)
  intro any s₁ h₁ _
  have hs₁ := r.ready hs h₁
  have ht₁ := fit_after hs h₁ ht
  split
  · exact Leads.pure ht₁
  · apply yields_bind hs₁ (BuildRules.gives_openSignature (r.sound hs₁))
    intro signature s₂ h₂ hs₂ hsig
    apply yields_bind hs₂ (BuildRules.gives_param (r.sound hs₂) _)
    intro self s₃ h₃ hs₃ hself
    have hsig₃ := fit_after hs₂ h₃ hsig
    exact yields_choose hs₃ hsig₃ hsig₃ hself (fit_after hs₂ h₃ (fit_after hs₁ h₂ ht₁))

theorem yields_withReceiver : Yields r (withReceiver subject) s := by
  apply Leads.bind (leads_acceptsAnyReceiver hs ht)
  intro any s₁ h₁ _
  split
  · exact Leads.pure (r.intrinsic (r.sound (r.ready hs h₁)) rfl)
  · exact Leads.pure (fit_after hs h₁ ht)

theorem yields_inferFunction : Yields r (inferFunction subject) s :=
  yields_bind hs (BuildRules.gives_openSignature (r.sound hs)) fun _ _ h' hs' hsig =>
    yields_choose hs' hsig hsig (r.intrinsic (r.sound hs') rfl) (fit_after hs h' ht)

omit ht in
/-- Matches a member and, if it fits, fills in a template. -/
theorem yields_replaced {member pattern template : TypeId} (hm : r.Fit s.2 member)
    (hp : r.Fit s.2 pattern) (htemplate : r.Fit s.2 template) {otherwise : EvalM TypeId}
    (ho : ∀ s', r.Works s s' → Yields r otherwise s') :
    Yields r (do
      match ← matches? member pattern with
      | some bindings => replaceInfers bindings template
      | none => otherwise) s := by
  apply Leads.bind (r.matched hs hm hp)
  intro found s₁ h₁ hfound
  have hs₁ := r.ready hs h₁
  cases found with
  | some bindings =>
    exact yields_store hs₁ (r.replaced (r.sound hs₁) (hfound _ rfl) (fit_after hs h₁ htemplate))
  | none => exact ho s₁ h₁

theorem yields_inferFunctionOrConstructor (wrapped : List Wrapper) :
    Yields r (inferFunctionOrConstructor wrapped subject) s := by
  apply yields_bind hs (BuildRules.gives_infer (r.sound hs) _)
  intro a s₁ h₁ hs₁ ha
  apply yields_bind hs₁ (BuildRules.gives_infer (r.sound hs₁) _)
  intro result s₂ h₂ hs₂ hr
  apply Leads.bind (leads_yielded hs₂ fun kind _ s' h' => ?_)
  · intro results s₃ h₃ hresults
    have hs₃ := r.ready hs₂ h₃
    have hr₃ := fit_after hs₂ h₃ hr
    have ha₃ := fit_after hs₂ h₃ (fit_after hs₁ h₂ ha)
    have ht₃ := fit_after hs₂ h₃ (fit_after hs₁ h₂ (fit_after hs h₁ ht))
    apply yields_bind hs₃ (BuildRules.gives_union (r.sound hs₃) fun t h => ?_)
    · intro either s₄ h₄ hs₄ heither
      have ha₄ := fit_after hs₃ h₄ ha₃
      have hr₄ := fit_after hs₃ h₄ hr₃
      apply yields_bind hs₄ (BuildRules.gives_restFunction (r.sound hs₄) ha₄ heither)
      intro template s₅ h₅ hs₅ htemplate
      have ha₅ := fit_after hs₄ h₅ ha₄
      have hr₅ := fit_after hs₄ h₅ hr₄
      apply yields_bind hs₅ (BuildRules.gives_restConstructor (r.sound hs₅) ha₅ hr₅)
      intro constructorPattern s₆ h₆ hs₆ hc
      apply yields_bind hs₆ (BuildRules.gives_restFunction (r.sound hs₆) (fit_after hs₅ h₆ ha₅)
        (fit_after hs₅ h₆ hr₅))
      intro functionPattern s₇ h₇ hs₇ hf
      have h₆₇ : r.Works s₅ s₇ := Evolution.trans h₆ h₇
      have h₃₇ : r.Works s₃ s₇ := Evolution.trans h₄ (Evolution.trans h₅ h₆₇)
      apply yields_distribute hs₇ (fit_after hs₃ h₃₇ ht₃)
      intro s' h' hs' member hm
      have htemplate' := fit_after hs₅ (Evolution.trans h₆₇ h') htemplate
      apply yields_replaced hs' hm (fit_after hs₆ (Evolution.trans h₇ h') hc) htemplate'
      intro s'' h''
      have hs'' := r.ready hs' h''
      apply yields_replaced hs'' (fit_after hs' h'' hm) (fit_after hs₇ (Evolution.trans h' h'') hf)
        (fit_after hs' h'' htemplate')
      intro s₉ h₉
      exact Leads.pure (r.intrinsic (r.sound (r.ready hs'' h₉)) rfl)
    · rcases List.mem_cons.mp h with rfl | h
      · exact hr₃
      · exact hresults t h
  · have hs' := r.ready hs₂ h'
    apply yields_store hs' (BuildRules.gives (r.sound hs') (.wrapper kind [result]) _ fun _ =>
      kind.takes_one)
    intro c hc
    exact List.mem_singleton.mp hc ▸ fit_after hs₂ h' hr

theorem yields_unionToIntersection : Yields r (unionToIntersection subject) s := by
  unfold unionToIntersection
  split
  · exact Leads.pure (r.intrinsic (r.sound hs) rfl)
  · apply leads_getStore
    apply Leads.bind (leads_yielded hs fun t hm s' h' => ?_)
    · intro functions s₁ h₁ hfunctions
      have hs₁ := r.ready hs h₁
      apply yields_bind hs₁
        (BuildRules.gives (r.sound hs₁) (.intersection _) hfunctions fun _ => trivial)
      intro combined s₂ h₂ hs₂ hcombined
      apply yields_bind hs₂ (BuildRules.gives_infer (r.sound hs₂) _)
      intro result s₃ h₃ hs₃ hr
      apply yields_bind hs₃ (BuildRules.gives_accepting (r.sound hs₃) hr)
      intro pattern s₄ h₄ hs₄ hp
      exact yields_choose hs₄ hp (fit_after hs₃ h₄ hr) (r.intrinsic (r.sound hs₄) rfl)
        (fit_after hs₃ h₄ (fit_after hs₂ h₃ hcombined))
    · have hs' := r.ready hs h'
      exact yields_store hs' (BuildRules.gives_accepting (r.sound hs')
        (fit_after hs h' (BuildRules.mem_unionMembers (r.sound hs) ht hm)))

theorem yields_pickKeys (keys : TypeId) : Yields r (pickKeys subject keys) s :=
  leads_getStore (yields_mapWith hs (fun _ h => by cases h) ht)

theorem yields_omitKeys {keys : TypeId} (hk : r.Fit s.2 keys) :
    Yields r (omitKeys subject keys) s := by
  apply yields_bind hs (BuildRules.gives_keyof (r.sound hs) ht)
  intro own s₁ h₁ hs₁ hown
  apply Leads.bind (yields_exclude hs₁ hown (fit_after hs h₁ hk))
  intro kept s₂ h₂ _
  exact yields_pickKeys (r.ready hs₁ h₂) (fit_after hs₁ h₂ (fit_after hs h₁ ht)) kept

/-- The answer, if there is one, may be used. -/
theorem leads_elementOf {array u : TypeId} (ha : r.Fit s.2 array) (hu : r.Fit s.2 u) :
    Leads r.Works (elementOf? array u subject) s fun found s' =>
      ∀ t, found = some t → r.Fit s'.2 t := by
  apply Leads.bind (r.matched hs ht ha)
  intro found s₁ h₁ hfound
  have hs₁ := r.ready hs h₁
  cases found with
  | none => exact Leads.pure fun _ h => by cases h
  | some bindings =>
    apply Leads.bind (leads_worked hs₁
      (r.replaced (r.sound hs₁) (hfound _ rfl) (fit_after hs h₁ hu)))
    intro t s₂ _ h
    apply Leads.pure
    intro t' he
    exact Option.some.inj he ▸ h

theorem leads_fieldsOf {same : MappingId} (ho : r.Usable s.2 (.mapping same)) :
    Leads r.Works (fieldsOf? same subject) s fun found s' =>
      ∀ t, found = some t → r.Fit s'.2 t := by
  apply Leads.bind (r.matched hs ht (r.intrinsic (r.sound hs) rfl))
  intro found s₁ h₁ _
  have hs₁ := r.ready hs h₁
  cases found with
  | none => exact Leads.pure fun _ h => by cases h
  | some bindings =>
    have ho₁ := r.usable (r.sound hs) (r.evolves hs h₁) ho
    apply Leads.bind (r.applied hs₁ ho₁ (fit_after hs h₁ ht))
    intro t s₂ _ h
    apply Leads.pure
    intro t' he
    exact Option.some.inj he ▸ h

/-- Tries one way of taking a member apart and then another. -/
theorem yields_eitherOf {f : TypeId → TypeId → MappingId → TypeId → EvalM TypeId}
    (hf : ∀ s, r.Ready s → ∀ u, r.Fit s.2 u → ∀ array, r.Fit s.2 array → ∀ same,
      r.Usable s.2 (.mapping same) → ∀ x, r.Fit s.2 x → Yields r (f u array same x) s) :
    Yields r (do
      let u ← Store.mkInfer "U"
      let array ← Store.mkArray u
      let same ← Store.internMapping {}
      Store.distribute subject (f u array same)) s := by
  apply yields_bind hs (BuildRules.gives_infer (r.sound hs) _)
  intro u s₁ h₁ hs₁ hu
  apply yields_bind hs₁ (BuildRules.gives_array (r.sound hs₁) hu)
  intro array s₂ h₂ hs₂ ha
  apply Leads.bind (leads_worked hs₂ (r.mapping (r.sound hs₂) fun _ h => by cases h))
  intro same s₃ h₃ hsame
  have hs₃ := r.ready hs₂ h₃
  have h₁₃ : r.Works s₁ s₃ := Evolution.trans h₂ h₃
  apply yields_distribute hs₃ (fit_after hs₁ h₁₃ (fit_after hs h₁ ht))
  intro s' h' hs' x hx
  exact hf s' hs' u (fit_after hs₁ (Evolution.trans h₁₃ h') hu) array
    (fit_after hs₂ (Evolution.trans h₃ h') ha) same
    (r.usable (r.sound hs₃) (r.evolves hs₃ h') hsame) x hx

theorem yields_inferArrayOrObject : Yields r (inferArrayOrObject subject) s := by
  apply yields_eitherOf hs ht
  intro s hs u hu array ha same hsame x hx
  apply Leads.bind (leads_elementOf hs hx ha hu)
  intro element s₁ h₁ he
  have hs₁ := r.ready hs h₁
  cases element with
  | some t => exact Leads.pure (he t rfl)
  | none =>
    apply Leads.bind (leads_fieldsOf hs₁ (fit_after hs h₁ hx)
      (r.usable (r.sound hs) (r.evolves hs h₁) hsame))
    intro fields s₂ h₂ hf
    apply Leads.pure
    cases fields with
    | none => exact r.intrinsic (r.sound (r.ready hs₁ h₂)) rfl
    | some t => exact hf t rfl

theorem yields_inferObjectOrArray : Yields r (inferObjectOrArray subject) s := by
  apply yields_eitherOf hs ht
  intro s hs u hu array ha same hsame x hx
  apply Leads.bind (leads_fieldsOf hs hx hsame)
  intro fields s₁ h₁ hf
  have hs₁ := r.ready hs h₁
  cases fields with
  | some t => exact Leads.pure (hf t rfl)
  | none =>
    apply Leads.bind (leads_elementOf hs₁ (fit_after hs h₁ hx) (fit_after hs h₁ ha)
      (fit_after hs h₁ hu))
    intro element s₂ h₂ he
    apply Leads.pure
    cases element with
    | none => exact r.intrinsic (r.sound (r.ready hs₁ h₂)) rfl
    | some t => exact he t rfl

end Yields

/-- What can be asked of an evaluator. -/
inductive Call
  | conditional (id : ConditionalId) (subject : TypeId)
  | choose (conditional : Conditional) (subject : TypeId)
  | mapping (id : MappingId) (subject : TypeId)
  | mapWith (mapping : Mapping) (subject : TypeId)
  | exclude (subject excluded : TypeId)
  | extract (subject extracted : TypeId)
  | nonNullable (subject : TypeId)
  | parameters (subject : TypeId)
  | constructorParameters (subject : TypeId)
  | returnType (subject : TypeId)
  | instanceType (subject : TypeId)
  | receiverType (subject : TypeId)
  | omitReceiver (subject : TypeId)
  | withReceiver (subject : TypeId)
  | unionToIntersection (subject : TypeId)
  | inferType (subject : TypeId)
  | inferArray (subject : TypeId)
  | inferObject (subject : TypeId)
  | inferArgument (kind : Wrapper) (position : Nat) (subject : TypeId)
  | inferFunction (subject : TypeId)
  | inferFunctionOrConstructor (wrapped : List Wrapper) (subject : TypeId)
  | inferArrayOrObject (subject : TypeId)
  | inferObjectOrArray (subject : TypeId)
  | pickKeys (subject keys : TypeId)
  | omitKeys (subject keys : TypeId)
  | record (names : List String) (value : TypeId)
  | keyof (subject : TypeId)
  | indexAccess (subject key : TypeId)
  | valueOf (subject : TypeId)

namespace Call

def operands : Call → List TypeId
  | .choose c subject => [c.pattern, c.yes, c.no, subject]
  | .exclude subject other | .extract subject other | .pickKeys subject other
  | .omitKeys subject other | .indexAccess subject other => [subject, other]
  | .conditional _ subject | .mapping _ subject | .mapWith _ subject | .nonNullable subject
  | .parameters subject | .constructorParameters subject | .returnType subject
  | .instanceType subject | .receiverType subject | .omitReceiver subject | .withReceiver subject
  | .unionToIntersection subject | .inferType subject | .inferArray subject | .inferObject subject
  | .inferArgument _ _ subject | .inferFunction subject | .inferFunctionOrConstructor _ subject
  | .inferArrayOrObject subject | .inferObjectOrArray subject | .record _ subject | .keyof subject
  | .valueOf subject => [subject]

def act : Call → EvalM TypeId
  | .conditional id subject => applyConditional id subject
  | .choose c subject => Evaluator.choose c subject
  | .mapping id subject => applyMapping id subject
  | .mapWith m subject => Evaluator.mapWith m subject
  | .exclude subject excluded => Evaluator.exclude subject excluded
  | .extract subject extracted => Evaluator.extract subject extracted
  | .nonNullable subject => Evaluator.nonNullable subject
  | .parameters subject => Evaluator.parameters subject
  | .constructorParameters subject => Evaluator.constructorParameters subject
  | .returnType subject => Evaluator.returnType subject
  | .instanceType subject => Evaluator.instanceType subject
  | .receiverType subject => Evaluator.receiverType subject
  | .omitReceiver subject => Evaluator.omitReceiver subject
  | .withReceiver subject => Evaluator.withReceiver subject
  | .unionToIntersection subject => Evaluator.unionToIntersection subject
  | .inferType subject => Evaluator.inferType subject
  | .inferArray subject => Evaluator.inferArray subject
  | .inferObject subject => Evaluator.inferObject subject
  | .inferArgument kind position subject => Evaluator.inferArgument kind position subject
  | .inferFunction subject => Evaluator.inferFunction subject
  | .inferFunctionOrConstructor wrapped subject =>
    Evaluator.inferFunctionOrConstructor wrapped subject
  | .inferArrayOrObject subject => Evaluator.inferArrayOrObject subject
  | .inferObjectOrArray subject => Evaluator.inferObjectOrArray subject
  | .pickKeys subject keys => Evaluator.pickKeys subject keys
  | .omitKeys subject keys => Evaluator.omitKeys subject keys
  | .record names value => Evaluator.record names value
  | .keyof subject => Store.keyof subject
  | .indexAccess subject key => Store.indexAccess subject key
  | .valueOf subject => Store.valueOf subject

def operator? : Call → Option Operator
  | .conditional id _ => some (.conditional id)
  | .mapping id _ => some (.mapping id)
  | .mapWith m _ =>
    match m.value with
    | .conditional id => some (.conditional id)
    | _ => none
  | _ => none

structure Permitted (r : OperatorRules) (call : Call) (st : Store) : Prop where
  operands : ∀ t ∈ call.operands, r.Fit st t
  operator : ∀ operator, call.operator? = some operator → r.Usable st operator
  wraps : ∀ kind position subject, call = .inferArgument kind position subject → r.Strict →
    kind.Takes (position + 1)

theorem Permitted.mapWith {m : Mapping} {subject : TypeId} {st : Store}
    (h : Permitted r (.mapWith m subject) st) {id : ConditionalId}
    (hm : m.value = .conditional id) :
    r.Usable st (.conditional id) := by
  apply h.operator
  simp only [operator?]
  rw [hm]

/-- Whatever is asked of an evaluator, it keeps to the rules. -/
theorem yields {s : State} (hs : r.Ready s) {call : Call} (h : call.Permitted r s.2) :
    Yields r call.act s := by
  have hg := r.sound hs
  have hc := h.operands
  cases call <;> simp only [operands, List.mem_cons, List.not_mem_nil, or_false, forall_eq_or_imp,
    forall_eq] at hc
  case conditional => exact r.applied hs (h.operator _ rfl) hc
  case choose => exact yields_choose hs hc.1 hc.2.1 hc.2.2.1 hc.2.2.2
  case mapping => exact r.applied hs (h.operator _ rfl) hc
  case mapWith => exact yields_mapWith hs (fun _ hm => h.mapWith hm) hc
  case exclude => exact yields_exclude hs hc.1 hc.2
  case extract => exact yields_extract hs hc.1 hc.2
  case nonNullable => exact yields_nonNullable hs hc
  case parameters => exact yields_parameters hs hc
  case constructorParameters => exact yields_constructorParameters hs hc
  case returnType => exact yields_returnType hs hc
  case instanceType => exact yields_instanceType hs hc
  case receiverType => exact yields_receiverType hs hc
  case omitReceiver => exact yields_omitReceiver hs hc
  case withReceiver => exact yields_withReceiver hs hc
  case unionToIntersection => exact yields_unionToIntersection hs hc
  case inferType => exact yields_inferType hs hc
  case inferArray => exact yields_inferArray hs hc
  case inferObject => exact yields_inferObject hs hc
  case inferArgument => exact yields_inferArgument hs hc (h.wraps _ _ _ rfl)
  case inferFunction => exact yields_inferFunction hs hc
  case inferFunctionOrConstructor => exact yields_inferFunctionOrConstructor hs hc _
  case inferArrayOrObject => exact yields_inferArrayOrObject hs hc
  case inferObjectOrArray => exact yields_inferObjectOrArray hs hc
  case pickKeys => exact yields_pickKeys hs hc.1 _
  case omitKeys => exact yields_omitKeys hs hc.1 hc.2
  case record => exact yields_store hs (BuildRules.gives_record hg _ hc)
  case keyof => exact yields_store hs (BuildRules.gives_keyof hg hc)
  case indexAccess => exact yields_store hs (BuildRules.gives_indexAccess hg hc.1 hc.2)
  case valueOf => exact yields_store hs (BuildRules.gives_valueOf hg hc)

end Call

end Evaluator

end TypeCalculus
