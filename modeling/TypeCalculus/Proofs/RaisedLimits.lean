import TypeCalculus.Proofs.MatcherSimulation

namespace TypeCalculus

theorem Store.form_eq_infer (st : Store) {node : Node} {name : String} :
    st.form node = .infer name ↔ node = .infer name := by
  cases node <;> simp [form]

/-- What there is to ask depends on the subject itself only where intrinsic types are concerned. -/
theorem Form.inquiry_congr {x y : TypeId} {f : Form} (h : ∀ kind, f.lies x kind = f.lies y kind)
    (g : Form) : f.inquiry x g = f.inquiry y g := by
  cases g with
  | intrinsic kind => cases f <;> simp only [inquiry, checks, h]
  | wrapper kind args => cases kind <;> cases f <;> rfl
  | _ => cases f <;> rfl

namespace Matcher

variable {base : Store} {s t : State} {f g : Goal → MatchM Bool}

def Asks₂ (base : Store) (f g : Goal → MatchM Bool) (s t : State) : Prop :=
  ∀ s' t', Moves base s s' → Moves base t t' → ∀ goal goal', Alike base s'.2 t'.2 goal goal' →
    Simulates base (f goal) (g goal') s' t'

theorem Asks₂.later {s' t' : State} (h : Asks₂ base f g s t) (hs : Moves base s s')
    (ht : Moves base t t') : Asks₂ base f g s' t' :=
  fun _ _ hs' ht' => h _ _ (Evolution.trans hs hs') (Evolution.trans ht ht')

theorem Asks₂.apply (h : Asks₂ base f g s t) {x y p q : TypeId} (hx : Twin base s.2 t.2 x y)
    (hp : Twin base s.2 t.2 p q) (v : Variance) : Simulates base (f ⟨x, p, v⟩) (g ⟨y, q, v⟩) s t :=
  h s t (Evolution.refl s) (Evolution.refl t) _ _ ⟨hx, hp, rfl⟩

section Actions

/-- What is built between two visits. -/
theorem rests_store {α : Type} {x : StoreM α}
    (h : Discipline.Evolves .free s.2 (Action.run x s.2).2) :
    Rests base s (Action.run (liftM x : MatchM α) s).2 where
  grown := h.grown
  guard := .refl _
  spent := id
  attends hs := by
    refine ⟨hs.founded, hs.grown.trans h.grown, h.reached hs.reached, fun hk => ?_⟩
    obtain ⟨htwin, hanswer⟩ := hs.scanned hk
    have hlater := htwin.later (.refl _) h.grown
    exact ⟨hlater.right,
      hanswer.trans (hlater.containsInfer hs.grown (hs.grown.trans h.grown) hs.founded)⟩
  still := rfl

theorem leads_scanned (hs : Attends base s) {p : TypeId} (hp : Twin base s.2 s.2 p p) :
    Leads (Rests base) (containsInfer p) s fun answer _ => answer = s.2.containsInfer p := by
  apply leads_containsInfer fun t answer hk => (hs.scanned hk).2
  refine ⟨⟨.refl _, .refl _, id, fun hs =>
    ⟨hs.founded, hs.grown, hs.reached, fun {t answer} hk => ?_⟩⟩, rfl⟩
  rw [Dict.get?_insert] at hk
  split at hk
  · rename_i he
    subst he
    cases hk
    exact ⟨hp, rfl⟩
  · exact hs.scanned hk

theorem rests_bind (name : String) (candidate : TypeId) (variance : Variance) (s : State) :
    Rests base s (Action.run (bind name candidate variance) s).2 := by
  have hfit : s.1.bindings.AreOf (Discipline.Fit .free) s.2 :=
    fun _ t _ => Discipline.fit_free s.2 t
  have hbound := Bindings.runs_bind (r := (Discipline.rules .free).toBuildRules)
    (Discipline.good_free s.2) hfit (Discipline.fit_free s.2 candidate) name variance
  have hrest : Rests base s _ := rests_store hbound.leads.1
  exact ⟨⟨hrest.grown, hrest.guard, hrest.spent, fun hs => { hrest.attends hs with }⟩, hrest.still⟩

theorem leads_anyBound (hs : Attends base s) {goal : Goal}
    (hp : Twin base s.2 s.2 goal.pattern goal.pattern) :
    Leads (Rests base) (bindAny goal) s fun _ _ => True := by
  unfold bindAny
  apply (leads_scanned hs hp).bind
  intro found s₁ _ _
  cases found with
  | false => exact Leads.pure trivial
  | true =>
    apply leads_getStore
    apply Leads.forM
    intro name _ s₂ _
    exact ⟨rests_bind name .any goal.variance s₂, trivial⟩

end Actions

section Step

variable (hs : Attends base s) (ht : Attends base t) (hask : Asks₂ base f g s t)

include hs ht hask

/-- Where values flow in, both find the same variables in the pattern. -/
theorem simulates_askParameter {x y p q : TypeId} (hx : Twin base s.2 t.2 x y)
    (hp : Twin base s.2 t.2 p q) (v : Variance) :
    Simulates base (askParameter f x p v) (askParameter g y q v) s t := by
  have hscan {s' : State} (hs' : Moves base s s') :=
    leads_scanned (hs'.attends hs) (hp.left.later hs'.grown hs'.grown)
  have hscan' {t' : State} (ht' : Moves base t t') :=
    leads_scanned (ht'.attends ht) (hp.right.later ht'.grown ht'.grown)
  apply Simulates.upon (R := fun found found' _ _ => found' = found)
  · exact fun s' hs' => (hscan hs').1
  · exact fun t' ht' => (hscan' ht').1
  · intro s' t' hs' ht'
    rw [(hscan hs').2, (hscan' ht').2]
    exact ((hp.later hs'.grown ht'.grown).containsInfer (hs'.attends hs).grown
      (ht'.attends ht).grown
      hs.founded).symm
  · intro found found' s' t' hs' ht' he
    subst he
    have hx' := hx.later hs'.grown ht'.grown
    have hp' := hp.later hs'.grown ht'.grown
    cases found' with
    | true => exact (hask.later hs' ht').apply hx' hp' v.flip
    | false => exact (hask.later hs' ht').apply hp' hx' v.flip

omit hask in
/-- The two see the same intrinsic types. -/
theorem twin_intrinsic {x y : TypeId} (h : Twin base s.2 t.2 x y) (kind : Intrinsic) :
    x = kind.id ↔ y = kind.id :=
  h.eq_iff hs.grown ht.grown hs.reached.shared ht.reached.shared (.same (hs.founded.intact kind))

omit hask in
/-- Types that are known as the same lie in the same intrinsic types. -/
theorem lies_twin {x y : TypeId} (h : Twin base s.2 t.2 x y) (form : Form) (kind : Intrinsic) :
    form.lies x kind = form.lies y kind := by
  have hobject : x = .object ↔ y = .object := twin_intrinsic hs ht h .object
  have hundefined : x = .undefined ↔ y = .undefined := twin_intrinsic hs ht h .undefined
  cases kind <;> cases form <;> simp only [Form.lies, hobject, hundefined]

section Inquiry

variable {goal goal' : Goal} (ha : Alike base s.2 t.2 goal goal') {form other : Form}
variable (hsub : ∀ c ∈ form.mentions, base.Intact c) (hpat : ∀ c ∈ other.mentions, base.Intact c)

include ha hsub

omit hask in
/-- What is asked about is built first, if need be. -/
theorem simulates_fetch {o : Operand} (ho : o.Of form) {x y : TypeId → MatchM Bool}
    (hf : ∀ a b s' t', Moves base s s' → Moves base t t' → Twin base s'.2 t'.2 a b →
      Simulates base (x a) (y b) s' t') :
    Simulates base (liftM (o.fetch goal.subject) >>= x)
      (liftM (o.fetch goal'.subject) >>= y) s t := by
  have hfree (subject : TypeId) (st : Store) :
      Discipline.Evolves .free st (Action.run (o.fetch subject) st).2 :=
    (runs_fetch (r := (Discipline.rules .free).toBuildRules) (Discipline.good_free st)
      (Discipline.fit_free st subject) (fun c _ => Discipline.fit_free st c) ho).leads.1
  apply Simulates.upon (R := fun a b st st' => Twin base st st' a b) _ _ _ hf
  · exact fun s' _ => rests_store (hfree goal.subject s'.2)
  · exact fun t' _ => rests_store (hfree goal'.subject t'.2)
  · intro s' t' hs' ht'
    have hgrown := (hs'.attends hs).grown
    have hgrown' := (ht'.attends ht).grown
    cases o with
    | whole => exact ha.subject.later hs'.grown ht'.grown
    | part c =>
      rcases ho with hc | rfl
      · exact .same (hsub c hc)
      · exact .same (hs.founded.intact .unknown)
    | element slot =>
      exact .elementType hs.founded hs.indexed hgrown hgrown' (hsub _ (Form.slot_mentioned ho))
    | rest slots =>
      obtain ⟨n, rfl⟩ := ho
      apply Twin.remainder hs.indexed hgrown hgrown'
      intro c hc
      obtain ⟨slot, hm, rfl⟩ := List.mem_map.mp hc
      exact hsub _ (Form.slot_mentioned (List.mem_of_mem_drop hm))

include hpat

/-- A question about parts that are known as the same. -/
theorem simulates_question {q : Question} (hq : q.Between form other) :
    Simulates base (q.run f goal) (q.run g goal') s t := by
  have hagainst : Twin base s.2 t.2 (q.against.getD goal.pattern)
      (q.against.getD goal'.pattern) := by
    cases hb : q.against with
    | none => exact ha.pattern
    | some b => exact .same (hpat b (hq.against hb))
  unfold Question.run
  apply simulates_fetch hs ht ha hsub hq.operand
  intro a b s' t' hs' ht' htwin
  have hb := hagainst.later hs'.grown ht'.grown
  unfold Question.put
  rw [ha.variance]
  split
  · exact simulates_askParameter (hs'.attends hs) (ht'.attends ht) (hask.later hs' ht') htwin hb _
  · exact (hask.later hs' ht').apply htwin hb _

/-- Inquiries are monotone in the answers to their questions. -/
theorem simulates_inquiry {i : Inquiry} (hi : i.Between form other) :
    Simulates base (i.run f goal) (i.run g goal') s t := by
  have hgoal {h h' : Goal} (hh : Alike base s.2 t.2 h h') : Simulates base (f h) (g h') s t :=
    hask s t (Evolution.refl s) (Evolution.refl t) h h' hh
  cases i with
  | all checks =>
    apply Simulates.all
    intro check hc
    have hb := hi check hc
    cases check with
    | settled holds => exact .pure holds
    | asked q => exact simulates_question hs ht hask ha hsub hpat hb
  | first members =>
    cases hi
    exact .any fun c hc => hgoal ⟨ha.subject, .same (hpat c hc), ha.variance⟩
  | each members =>
    cases hi
    apply Simulates.some
    exact fun c hc => hgoal ⟨.same (hsub c hc), ha.pattern, ha.variance⟩

end Inquiry

omit hs ht hask in
theorem Moves.lookup {s' : State} (h : Moves base s s') {x : TypeId} {n : Node}
    (hn : s.2.lookup x = some n) :
    s'.2.lookup x = some n :=
  h.grown.grows.lookup hn

/-- Both come to the same inquiry. -/
theorem simulates_matchStructure {goal goal' : Goal} (ha : Alike base s.2 t.2 goal goal')
    {p q : Node} (hp : s.2.lookup goal.pattern = some p) (hq : t.2.lookup goal'.pattern = some q) :
    Simulates base (matchStructure f goal p) (matchStructure g goal' q) s t := by
  rw [matchStructure_eq, matchStructure_eq]
  apply Simulates.read
  intro s' t' hs' ht'
  have hs := hs'.attends hs
  have ht := ht'.attends ht
  have ha := ha.later hs'.grown ht'.grown
  have hpattern := ha.pattern.form hs.grown ht.grown
  rw [Store.form_of_lookup (hs'.lookup hp), Store.form_of_lookup (ht'.lookup hq)] at hpattern
  rw [← Option.some.inj hpattern]
  unfold Store.inquiry
  rw [← ha.subject.form hs.grown ht.grown]
  cases hf : s'.2.form? goal.subject with
  | none => exact .all fun check hc => by cases List.mem_singleton.mp hc; exact .pure false
  | some form =>
    have hsame := form.inquiry_congr (lies_twin hs ht ha.subject form) (s'.2.form p)
    dsimp only
    rw [← hsame]
    exact simulates_inquiry hs ht (hask.later hs' ht') ha
      (fun c hc => ha.subject.parts hs.grown hf hc)
      (fun c hc => ha.pattern.parts hs.grown (Store.form_of_lookup (hs'.lookup hp)) hc)
      (form.between_inquiry _ _)

end Step

structure Inward (base : Store) (f g : Goal → MatchM Bool) (goal goal' : Goal)
    (s t : State) : Prop where
  low : ∀ s', Moves base s s' → Guard.Inside goal s'.1.guard (s'.1.guard.enter goal).2 →
    Asks₂ base f f (entering s' goal) (entering s' goal)
  high : ∀ t', Moves base t t' → Guard.Inside goal' t'.1.guard (t'.1.guard.enter goal').2 →
    Asks₂ base g g (entering t' goal') (entering t' goal')
  both : ∀ s' t', Moves base s s' → Moves base t t' →
    Guard.Inside goal s'.1.guard (s'.1.guard.enter goal).2 →
    Guard.Inside goal' t'.1.guard (t'.1.guard.enter goal').2 →
    Asks₂ base f g (entering s' goal) (entering t' goal')

theorem Inward.later {goal goal' : Goal} {s' t' : State} (h : Inward base f g goal goal' s t)
    (hs : Moves base s s') (ht : Moves base t t') : Inward base f g goal goal' s' t' where
  low _ h₁ := h.low _ (Evolution.trans hs h₁)
  high _ h₁ := h.high _ (Evolution.trans ht h₁)
  both _ _ h₁ h₂ := h.both _ _ (Evolution.trans hs h₁) (Evolution.trans ht h₂)

section Levels

variable {goal goal' : Goal} (hs : Attends base s) (ht : Attends base t)
  (ha : Alike base s.2 t.2 goal goal')

include hs ht ha

theorem simulates_visited (hinward : Inward base f g goal goal' s t) {p q : Node}
    (hp : s.2.lookup goal.pattern = some p) (hq : t.2.lookup goal'.pattern = some q) :
    Simulates base (visit goal true false (matchStructure f goal p))
      (visit goal' true false (matchStructure g goal' q)) s t := by
  apply Simulates.visit ha
  · intro s' h hi
    have hin := (h.attends hs).setGuard (s'.1.guard.enter goal).2
    exact (simulates_matchStructure hin hin (hinward.low s' h hi) (ha.left.later h.grown h.grown)
      (h.lookup hp) (h.lookup hp)).low
  · intro t' h hi
    have hin := (h.attends ht).setGuard (t'.1.guard.enter goal').2
    exact (simulates_matchStructure hin hin (hinward.high t' h hi) (ha.right.later h.grown h.grown)
      (h.lookup hq) (h.lookup hq)).high
  · intro s' t' h h' hi hi'
    exact simulates_matchStructure ((h.attends hs).setGuard _) ((h'.attends ht).setGuard _)
      (hinward.both s' t' h h' hi hi') (ha.later h.grown h'.grown) (h.lookup hp) (h'.lookup hq)

theorem simulates_anyBound :
    Simulates base (do bindAny goal; return true) (do bindAny goal'; return true) s t := by
  apply Simulates.upon (R := fun _ _ _ _ => True)
  · exact fun s' h => (leads_anyBound (h.attends hs) (ha.pattern.left.later h.grown h.grown)).1
  · exact fun t' h => (leads_anyBound (h.attends ht) (ha.pattern.right.later h.grown h.grown)).1
  · exact fun _ _ _ _ => trivial
  · exact fun _ _ _ _ _ _ _ => .pure true

omit hs ht ha in
theorem simulates_bound (name : String) :
    Simulates base (do bind name goal.subject goal.variance; return true)
      (do bind name goal'.subject goal'.variance; return true) s t := by
  apply Simulates.upon (R := fun _ _ _ _ => True)
  · exact fun s' _ => rests_bind name goal.subject goal.variance s'
  · exact fun t' _ => rests_bind name goal'.subject goal'.variance t'
  · exact fun _ _ _ _ => trivial
  · exact fun _ _ _ _ _ _ _ => .pure true

/-- The tests that come before a visit. -/
theorem ends_alike : (goal.subject = .any ↔ goal'.subject = .any) ∧
    (goal.pattern.isTop || goal.subject = .never) =
    (goal'.pattern.isTop || goal'.subject = .never) := by
  have htop : goal.pattern = .any ↔ goal'.pattern = .any := twin_intrinsic hs ht ha.pattern .any
  have htop' : goal.pattern = .unknown ↔ goal'.pattern = .unknown :=
    twin_intrinsic hs ht ha.pattern .unknown
  have hnever : goal.subject = .never ↔ goal'.subject = .never :=
    twin_intrinsic hs ht ha.subject .never
  refine ⟨twin_intrinsic hs ht ha.subject .any, ?_⟩
  simp only [TypeId.isTop, htop, htop', hnever]

/-- One level of the walk. -/
theorem simulates_step (hinward : Inward base f g goal goal' s t) :
    Simulates base (step f goal) (step g goal') s t := by
  have hself := ha.subject.eq_iff hs.grown ht.grown hs.reached.shared ht.reached.shared ha.pattern
  obtain ⟨hany, hends⟩ := ends_alike hs ht ha
  unfold step
  simp only [hself]
  split
  · exact .pure true
  · apply Simulates.read
    intro s' t' hs' ht'
    have hs := hs'.attends hs
    have ht := ht'.attends ht
    have ha := ha.later hs'.grown ht'.grown
    obtain ⟨hp, hq⟩ | ⟨p, q, hp, hq, hform, _⟩ := ha.pattern.lookup hs.grown ht.grown
    · simp only [hp, hq]
      exact .pure false
    · have hvisit := simulates_visited hs ht ha (hinward.later hs' ht') hp hq
      have hrest : Simulates base
          (if goal.pattern.isTop || goal.subject = .never then return true
            else if goal.subject = .any then do bindAny goal; return true
            else visit goal true false (matchStructure f goal p))
          (if goal'.pattern.isTop || goal'.subject = .never then return true
            else if goal'.subject = .any then do bindAny goal'; return true
            else visit goal' true false (matchStructure g goal' q)) s' t' := by
        simp only [hends, hany]
        split
        · exact .pure true
        · split
          · exact simulates_anyBound hs ht ha
          · exact hvisit
      have hinfer {name : String} : q = .infer name ↔ p = .infer name := by
        rw [← Store.form_eq_infer t'.2, hform, Store.form_eq_infer]
      rw [hp, hq]
      cases p with
      | infer name =>
        rw [hinfer.mpr rfl]
        exact simulates_bound name
      | _ =>
        cases q with
        | infer name => cases hinfer.mp rfl
        | _ => exact hrest

end Levels

def Roomy (room : Nat) (s : State) : Prop := s.1.guard.limits.depth ≤ room + s.1.guard.depth

section Roomy

variable {room : Nat} {goal : Goal} {s' : State}

theorem Roomy.moves (h : Roomy room s) (hs : Moves base s s') : Roomy room s' := by
  unfold Roomy
  rw [hs.guard.limits, hs.guard.depth]
  exact h

theorem Roomy.pos (h : Roomy room s) (hs : Moves base s s')
    (hi : Guard.Inside goal s'.1.guard (s'.1.guard.enter goal).2) : room ≠ 0 := by
  have hroom := h.moves hs
  have hlt := hi.room
  unfold Roomy at hroom
  omega

theorem Roomy.entering (h : Roomy (room + 1) s) (hs : Moves base s s')
    (hi : Guard.Inside goal s'.1.guard (s'.1.guard.enter goal).2) :
    Roomy room (entering s' goal) := by
  have hroom := h.moves hs
  unfold Roomy at hroom
  show (s'.1.guard.enter goal).2.limits.depth ≤ room + (s'.1.guard.enter goal).2.depth
  rw [hi.limits, hi.depth]
  omega

end Roomy

def lower : Nat → Goal → MatchM Bool
  | 0 => fun _ => return false
  | room + 1 => descend step (fun _ => return false) room

theorem descend_lower (room : Nat) :
    descend step (fun _ => return false) room = step (lower room) := by
  cases room <;> rfl

/-- Two walks of any depth. -/
theorem simulates_descend {n room room' : Nat} (hn : room < n) (hn' : room' < n) {goal goal' : Goal}
    (hs : Attends base s) (ht : Attends base t) (ha : Alike base s.2 t.2 goal goal')
    (hroom : Roomy room s) (hroom' : Roomy room' t) :
    Simulates base (descend step (fun _ => return false) room goal)
      (descend step (fun _ => return false) room' goal') s t := by
  -- a walk is also compared with itself, so the induction is on a bound for both depths
  induction n generalizing room room' goal goal' s t with
  | zero => omega
  | succ n ih =>
    have hdeeper {r r' : Nat} {s t : State} (h : r < n) (h' : r' < n) (hs : Attends base s)
        (ht : Attends base t) (hr : Roomy r s) (hr' : Roomy r' t) :
        Asks₂ base (lower (r + 1)) (lower (r' + 1)) s t :=
      fun _ _ hs' ht' _ _ ha =>
        ih h h' (hs'.attends hs) (ht'.attends ht) ha (hr.moves hs') (hr'.moves ht')
    have hself {r : Nat} (h : r ≤ n) {s : State} (hs : Attends base s) (hr : Roomy r s)
        (goal : Goal) :
        ∀ s', Moves base s s' → Guard.Inside goal s'.1.guard (s'.1.guard.enter goal).2 →
          Asks₂ base (lower r) (lower r) (entering s' goal) (entering s' goal) := by
      intro s' hs' hi
      cases r with
      | zero => exact fun _ _ _ _ _ _ _ => .pure false
      | succ r =>
        have hin := (hs'.attends hs).setGuard (s'.1.guard.enter goal).2
        exact hdeeper h h hin hin (hr.entering hs' hi) (hr.entering hs' hi)
    rw [descend_lower, descend_lower]
    apply simulates_step hs ht ha
    refine ⟨hself (by omega) hs hroom goal, hself (by omega) ht hroom' goal', ?_⟩
    intro s' t' hs' ht' hi hi'
    obtain ⟨r, rfl⟩ := Nat.exists_eq_succ_of_ne_zero (hroom.pos hs' hi)
    obtain ⟨r', rfl⟩ := Nat.exists_eq_succ_of_ne_zero (hroom'.pos ht' hi')
    exact hdeeper (by omega) (by omega) ((hs'.attends hs).setGuard _) ((ht'.attends ht).setGuard _)
      (hroom.entering hs' hi) (hroom'.entering ht' hi')

end Matcher

/-- As deep and no fewer visits, or at least as deep and as many visits as can be counted. -/
def Limits.Raised (low high : Limits) : Prop :=
  high.depth = low.depth ∧ low.iterations ≤ high.iterations ∨
    low.depth ≤ high.depth ∧ Guard.countLimit ≤ high.iterations

/-- Two matchers begin in extensions of one store, with types that are there known as the same. -/
theorem Matcher.run_raised {st : Store} (hf : st.Founded) {low high : Limits} (h : low.Raised high)
    {one other : Store} (h₁ : st.Extends one) (hr₁ : one.Reached) (h₂ : st.Extends other)
    (hr₂ : other.Reached) {subject subject' pattern pattern' : TypeId}
    (hs : Twin st one other subject subject') (hp : Twin st one other pattern pattern')
    (hyes : ((Matcher.run low subject pattern).run one).1.1 = true) :
    ((Matcher.run high subject' pattern').run other).1.1 = true := by
  have hstart {limits : Limits} {later : Store} (he : st.Extends later) (hr : later.Reached) :
      Attends st (start limits, later) := ⟨hf, he, hr, fun hk => by cases hk⟩
  have hsimulates : Simulates st (ask low ⟨subject, pattern, .covariant⟩)
      (ask high ⟨subject', pattern', .covariant⟩) (start low, one) (start high, other) :=
    simulates_descend (n := max low.depth high.depth + 1) (by omega) (by omega) (hstart h₁ hr₁)
      (hstart h₂ hr₂) ⟨hs, hp, rfl⟩ (Nat.le_refl _) (Nat.le_refl _)
  have hlevel : Level st (start low, one) (start high, other) := by
    refine ⟨hstart h₁ hr₁, hstart h₂ hr₂, .nil, rfl, ?_⟩
    rcases h with ⟨h, _⟩ | ⟨h, _⟩
    · exact Nat.le_of_eq h.symm
    · exact h
  have hmode : Locked (start low).guard (start high).guard ∨
      Lagging (start low).guard (start high).guard := by
    rcases h with ⟨hd, hi⟩ | ⟨_, hi⟩
    · exact .inl ⟨rfl, hd, hi⟩
    · exact .inr (.inr hi)
  have hagree := hsimulates.agree _ _ (Evolution.refl _) (Evolution.refl _) hlevel hmode
  rcases hagree.answers with ⟨_, he⟩ | ⟨_, himp⟩
  · exact he.trans hyes
  · exact himp hyes

theorem isSome_matchPattern (subject pattern : TypeId) (limits : Limits) (st : Store) :
    ((matchPattern subject pattern limits).run st).1.isSome =
      ((Matcher.run limits subject pattern).run st).1.1 := by
  show (if ((Matcher.run limits subject pattern).run st).1.1 then some _ else none).isSome = _
  cases ((Matcher.run limits subject pattern).run st).1.1 <;> rfl

/-- Raising the limits never loses a match, if nothing within reach of the two types is missing. The
two matches may come in any order, and whatever else may be added to the store between them. -/
theorem matchPattern_raised {st : Store} (h : st.Reached) {subject pattern : TypeId}
    (hs : st.Intact subject) (hp : st.Intact pattern) {low high : Limits} (hl : low.Raised high)
    {one other : Store} (h₁ : Discipline.Evolves .free st one)
    (h₂ : Discipline.Evolves .free st other)
    (hyes : ((matchPattern subject pattern low).run one).1.isSome = true) :
    ((matchPattern subject pattern high).run other).1.isSome = true := by
  rw [isSome_matchPattern] at hyes ⊢
  exact Matcher.run_raised h.founded hl h₁.grown (h₁.reached h) h₂.grown (h₂.reached h) (.same hs)
    (.same hp) hyes

/-- At place 14 two tuples to choose from, and at 15 the second of them with a number. -/
def choices : List Operation :=
  [.build (.tuple [{ type := .string }, { type := .boolean, rest := true }]),
    .build (.tuple [{ type := .string }, { type := .string }]), .build (.union [12, 13]),
    .build (.tuple [{ type := 13 }, { type := .number }])]

/-- The choice, and then what the tuple at place 16 holds. -/
def chosenFirst : List Operation :=
  choices ++ [.build (.tuple [{ type := .number }]),
    .build (.tuple [{ type := 14 }, { type := 16, rest := true }])]

theorem matchPattern_raised_chosenFirst :
    let st := Operation.afterAll .initial chosenFirst
    let low : Limits := { depth := 100, iterations := 2 }
    let high : Limits := { depth := 100, iterations := 100 }
    (∀ t < 18, st.Intact t) ∧ low.Raised high ∧ ((matchPattern 15 17 low).run st).1.isSome = true ∧
      ((matchPattern 15 17 high).run ((matchPattern 15 17 low).run st).2).1.isSome = true := by
  intro st low high
  have hsize : st.size = 18 := by decide +kernel
  have hintact : ∀ t < 18, st.Intact t := fun t ht =>
    Store.intact_of_builds (by decide +kernel) (hsize ▸ ht)
  have hlater : Discipline.Evolves .free st ((matchPattern 15 17 low).run st).2 :=
    (runs_matchPattern (r := (Discipline.rules .free).toBuildRules) (Discipline.good_free st)
      (Discipline.fit_free st 15) (Discipline.fit_free st 17) low).leads.1
  have hraised : low.Raised high := .inl ⟨rfl, by decide⟩
  have hyes : ((matchPattern 15 17 low).run st).1.isSome = true := by decide +kernel
  exact ⟨hintact, hraised, hyes,
    matchPattern_raised (Operation.reached_afterAll .initial chosenFirst)
    (hintact 15 (by decide)) (hintact 17 (by decide)) hraised (Evolution.refl st) hlater hyes⟩

/-- With more visits a member of the choice is looked into that was passed over before, and the rest
that is looked at there takes the place that the pattern names. -/
theorem matchPattern_loses_unborn :
    let st := Operation.afterAll .initial
      (choices ++ [.build (.tuple [{ type := 14 }, { type := 17, rest := true }])])
    st.size = 17 ∧ ((matchPattern 15 16 { depth := 100, iterations := 2 }).run st).1.isSome = true ∧
      ((matchPattern 15 16 { depth := 100, iterations := 100 }).run st).1.isSome = false := by
  decide +kernel

end TypeCalculus
