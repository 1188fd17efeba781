import TypeCalculus.Proofs.SignatureTemplates

namespace TypeCalculus

open Store (Made)

namespace Evaluator

open Matcher (Presented filled)

/-- Asked of a fresh evaluator, the operator answers with the type that the action builds from then
on. -/
def AnswersWith (st : Store) (operator : EvalM TypeId) (build : StoreM TypeId) : Prop :=
  let r := Action.run operator (start, st)
  ∀ st', r.2.2.Supplemented st' → build.run st' = (r.1, st')

/-- What was built on the way is found again from then on. -/
theorem answersWith_of_leads {st : Store} {operator : EvalM TypeId} {build : StoreM TypeId}
    (hg : Discipline.Good .typed st)
    (h : Leads Proceeds operator (start, st) fun a s' => build.run s'.2 = (a, s'.2))
    {Q : TypeId → Store → Prop} (hruns : ∀ st', Discipline.Evolves .typed st st' →
      Runs (Discipline.Again .typed) (Discipline.Evolves .typed) build st' Q) :
      AnswersWith st operator build := by
  obtain ⟨hproceeds, hbuild⟩ := h
  intro st' hst'
  have hgrown := (hst'.evolves (hproceeds.upholds.store.good hg)).grown
  have hecho := (hruns _ hproceeds.upholds.store).echo st'
  have hstart : Action.run build _ = _ := hbuild
  rw [hstart] at hecho
  exact hecho ⟨(fun h => by cases h), hgrown.widens, fun _ => hgrown⟩

variable {s : State}

theorem proceeds_lift {α : Type} {x : StoreM α} {Q : α → Store → Prop}
    (h : Leads (Discipline.Evolves .typed) x s.2 Q) :
    Leads Proceeds (liftM x : EvalM α) s fun a s' => s'.1 = s.1 ∧ Q a s'.2 :=
  leads_lift (.lift h.1) ⟨rfl, h.2⟩

def Unseen (c : Conditional) (s : State) : Prop := ∀ task a, Recalls s.1 task a →
  ∃ id other, task.operator = .conditional id ∧ s.2.conditionals.get? id = some other ∧ other ≠ c

theorem Unseen.later {c : Conditional} (h : Unseen c s) {st' : Store} (he : s.2.Extends st') :
    Unseen c (s.1, st') := by
  intro task a hr
  obtain ⟨id, other, ho, hget, hne⟩ := h task a hr
  exact ⟨id, other, ho, he.conditionals.get? hget, hne⟩

/-- A conditional that is new to the evaluator is applied to a type that is its own only member. -/
theorem proceeds_choose (hp : Proper s) {c : Conditional} (hd : c.distributive = true)
    (hparts : c.pattern < s.2.size ∧ c.yes < s.2.size ∧ c.no < s.2.size) {x : TypeId}
    (hx : x < s.2.size) (hone : s.2.unionMembers x = [x]) (hnew : Unseen c s) :
    Leads Proceeds (choose c x) s fun a s' =>
      (∃ st₁, Discipline.Evolves .typed s.2 st₁ ∧ (branch s.1.limits c x).run st₁ = (a, s'.2)) ∧
        (s.1.memo = .empty → ∀ other, other ≠ c → Unseen other s') := by
  apply (proceeds_lift (Discipline.leads_internConditional fun _ => hparts)).bind
  rintro id s₁ h₁ ⟨he₁, hid⟩
  have hp₁ := hp.later h₁
  have hid := hid hp₁.anchored.indexed
  have hgrown := h₁.upholds.store.grown
  have hconditional : s₁.2.conditional id = c := by
    rw [Store.conditional, hid]
    rfl
  have hone₁ : s₁.2.unionMembers x = [x] :=
    (hp.wellFormed.unionMembers_grows hgrown.grows hx).trans hone
  have hforgot (a : TypeId) : ¬ Recalls s₁.1 ⟨.conditional id, x⟩ a := by
    intro hr
    rw [he₁] at hr
    obtain ⟨id', other, ho, hget, hne⟩ := hnew.later hgrown _ a hr
    cases ho
    exact hne (Option.some.inj (hget.symm.trans hid))
  have happly : Action.run (applyConditional id x) s₁ = Action.run (conditionalMember id x) s₁ := by
    have hget (s : State) : Action.run (getThe Store : EvalM Store) s = (s.2, s) := rfl
    have hread (s : State) : Action.run (liftM (get : StoreM Store) : EvalM Store) s = (s.2, s) :=
      rfl
    unfold applyConditional Store.distribute
    rw [Action.run_bind, hget, hconditional, if_pos hd, Action.run_bind, hread, hone₁]
  have hmember : Leads Proceeds (conditionalMember id x) s₁ fun _ _ => True :=
    (proceeds_member hp₁ (.conditional id) 0 (Nat.lt_of_lt_of_le hx hgrown.size)).mono
      fun _ _ _ _ => trivial
  unfold Leads at hmember ⊢
  rw [happly]
  rcases run_conditionalMember hp₁.resting hp₁.positive id x with ⟨a, hr, _⟩ | ⟨e, hrun, _, hothers⟩
  · exact absurd hr (hforgot a)
  · rw [hrun, hconditional] at hmember
    rw [hrun, hconditional, he₁]
    refine ⟨he₁ ▸ hmember.1, ⟨s₁.2, h₁.upholds.store, rfl⟩, ?_⟩
    intro hempty other hne task a hr
    have htask : task = ⟨.conditional id, x⟩ := by
      by_contra hdiffer
      have hnone := hothers task hdiffer
      rw [he₁, hempty] at hnone
      cases hnone.symm.trans hr
    subst htask
    refine ⟨id, c, rfl, ?_, hne.symm⟩
    have hlater := hmember.1.upholds.store.grown
    rw [he₁] at hlater
    exact hlater.conditionals.get? hid

theorem run_matches (t pattern : TypeId) (s : State) :
    Action.run (matches? t pattern) s = (((matchPattern t pattern s.1.limits).run s.2).1, s.1,
      ((matchPattern t pattern s.1.limits).run s.2).2) := rfl

section Branch

variable {st : Store} (hg : Discipline.Good .typed st) {f : TypeId} {c : Conditional}
  {subject pattern : Signature}
  {receiver params result : Option String}

include hg

/-- The branch is taken in which what was found stands in the open places. -/
theorem run_branch_open (h : Presented st f c.pattern subject pattern receiver params result)
    {limits : Limits} (hl : limits.Positive)
    (hrest : params = none → ∀ slot, subject.params = [slot] → slot.rest = false) :
    ∃ rest st₁, Discipline.Evolves .typed st st₁ ∧ st₁.Remainder subject.params rest ∧
      (branch limits c f).run st =
        (instantiate c c.yes (filled subject receiver params result rest) f).run st₁ := by
  obtain ⟨rest, st₁, hrun, hremainder⟩ :=
    Matcher.run_matchPattern_open hg.wellFormed hl h.faces h.differ h.free
    h.opened fun hnone slot hone hr => by
      rw [hrest hnone slot hone] at hr
      cases hr
  have hany : f ≠ .any := (h.faces.ne_intrinsic hg.wellFormed.founded .any).1
  have hmatch : Action.run (matchPattern f c.pattern limits) st = _ := hrun
  have hev := (runs_matchPattern (r := (Discipline.rules .typed).toBuildRules) hg
    (fit_typed h.faces.lt_size.1) (fit_typed h.faces.lt_size.2) limits).leads.1
  rw [hmatch] at hev
  refine ⟨rest, st₁, hev, hremainder, ?_⟩
  show Action.run (branch limits c f) st = _
  unfold branch
  rw [Action.run_bind, hmatch]
  simp only [hany, decide_false, Bool.false_and]
  rfl

end Branch

/-- A conditional with an open signature for its pattern puts what it found into the branch. -/
theorem proceeds_choose_open (hp : Proper s) {c : Conditional} (hd : c.distributive = true)
    (hparts : c.yes < s.2.size ∧ c.no < s.2.size) {f : TypeId} {subject pattern : Signature}
    {receiver params result : Option String}
    (h : Presented s.2 f c.pattern subject pattern receiver params result)
    (hrest : params = none → ∀ slot, subject.params = [slot] → slot.rest = false)
    (hnew : Unseen c s) :
    Leads Proceeds (choose c f) s fun a s' =>
      (∃ rest st₁, Discipline.Evolves .typed s.2 st₁ ∧ st₁.Remainder subject.params rest ∧
        (instantiate c c.yes (filled subject receiver params result rest) f).run st₁ = (a, s'.2)) ∧
      (s.1.memo = .empty → ∀ other, other ≠ c → Unseen other s') := by
  have hg := hp.ready.good
  refine (proceeds_choose hp hd ⟨h.faces.lt_size.2, hparts⟩ h.faces.lt_size.1
    (h.faces.unionMembers hp.tidy hg.wellFormed.founded) hnew).mono fun a s' _ hpost => ?_
  obtain ⟨⟨st₁, h₁, hbranch⟩, hunseen⟩ := hpost
  obtain ⟨rest, st₂, h₂, hremainder, hrun⟩ :=
    run_branch_open (h₁.good hg) (h.later hg.wellFormed h₁.grown)
    hp.positive hrest
  exact ⟨⟨rest, st₂, Evolution.trans h₁ h₂, hremainder, hrun.symm.trans hbranch⟩, hunseen⟩

/-- A branch that is a variable is answered with what the variable has taken. -/
theorem proceeds_choose_infer (hp : Proper s) {c : Conditional} (hd : c.distributive = true)
    (hparam : c.param = none) (hno : c.no < s.2.size) {f : TypeId} {subject pattern : Signature}
    {receiver params result : Option String}
    (h : Presented s.2 f c.pattern subject pattern receiver params result)
    (hrest : params = none → ∀ slot, subject.params = [slot] → slot.rest = false)
    (hnew : Unseen c s) {name : String} (hyes : Made (.infer name) c.yes s.2)
    (hbound : ∀ rest, ∃ a, (filled subject receiver params result rest).get? name = some a) :
    Leads Proceeds (choose c f) s fun a s' =>
      (∃ rest, s'.2.Remainder subject.params rest ∧
        (filled subject receiver params result rest).get? name = some a) ∧
      (s.1.memo = .empty → ∀ other, other ≠ c → Unseen other s') := by
  have hw := hp.wellFormed
  refine (proceeds_choose_open hp hd ⟨hyes.lt_size, hno⟩ h hrest hnew).mono fun a s' _ hpost => ?_
  obtain ⟨⟨rest, st₁, h₁, hremainder, hrun⟩, hunseen⟩ := hpost
  obtain ⟨x, hx⟩ := hbound rest
  have hanswer : (instantiate c c.yes (filled subject receiver params result rest) f).run st₁ =
      (x, st₁) := by
    unfold instantiate
    rw [hparam]
    exact Substitution.applyOnce_infer _ (h₁.grown.founded hw.founded) rfl rfl
      (Substitution.cells_infer (hyes.later hw h₁.grown)) hx
  obtain ⟨rfl, hst⟩ := Prod.mk.inj (hanswer.symm.trans hrun)
  exact ⟨⟨rest, hst ▸ hremainder, hx⟩, hunseen⟩

theorem unseen_of_empty (h : s.1.memo = .empty) (c : Conditional) : Unseen c s := by
  intro task a hr
  have hr : s.1.memo.get? task = some (.done a) := hr
  rw [h] at hr
  cases hr

section Operators

variable (hp : Proper s) (hnew : s.1.memo = .empty) {f : TypeId} {subject : Signature}
  (hf : s.2.ClosedFunction f subject)

include hp hnew hf

/-- An operator that asks for one variable answers with what that has taken. What comes next is new
to the evaluator if it is a conditional with a parameter, which this one has not. -/
theorem proceeds_ask {name : String} {build : TypeId → StoreM TypeId} (no : Intrinsic)
    (pattern : TypeId → Signature) (receiver params result : Option String)
    (taken : TypeId → TypeId)
    (hbuild : ∀ {st : Store} {x : TypeId}, Discipline.Good .typed st → Made (.infer name) x st →
      Leads (Discipline.Evolves .typed) (build x) st (Made (.function (pattern x))))
    (hopen : ∀ {st : Store} {x : TypeId}, Made (.infer name) x st →
      Matcher.Open st (pattern x) receiver params result)
    (hsome : params ≠ none ∨ result ≠ none ∨ receiver ≠ none)
    (hrest : params = none → ∀ slot, subject.params = [slot] → slot.rest = false)
    (htaken : ∀ rest, (filled subject receiver params result rest).get? name = some (taken rest)) :
    Leads Proceeds (do
        let x ← Store.mkInfer name
        let p ← build x
        choose { pattern := p, yes := x, no := no.id, distributive := true } f :
        EvalM TypeId) s fun a s' =>
      (∃ rest, s'.2.Remainder subject.params rest ∧ a = taken rest) ∧
        ∀ c : Conditional, c.param ≠ none → Unseen c s' := by
  have hg := hp.ready.good
  apply (proceeds_lift (Discipline.runs_mkInfer hg name).leads).bind
  rintro x s₁ h₁ ⟨he₁, hinfer⟩
  have hg₁ := h₁.upholds.store.good hg
  have hinfer := hinfer.typed hg₁
  apply (proceeds_lift (hbuild hg₁ hinfer)).bind
  rintro p s₂ h₂ ⟨he₂, hpattern⟩
  have h := Evolution.trans h₁ h₂
  have hinfer₂ := hinfer.later hg₁.wellFormed h₂.upholds.store.grown
  have hpresented :=
    (hf.later hg.wellFormed h.upholds.store.grown).presented hpattern.form (hopen hinfer₂) hsome
  have hempty : s₂.1.memo = .empty := by rw [he₂, he₁, hnew]
  refine (proceeds_choose_infer (hp.later h) rfl rfl ((h.upholds.store.good hg).valid_intrinsic no)
    hpresented hrest
    (unseen_of_empty hempty _) hinfer₂ fun rest => ⟨_, htaken rest⟩).mono ?_
  rintro a s' _ ⟨⟨rest, hremainder, hbound⟩, hunseen⟩
  refine ⟨⟨rest, hremainder, Option.some.inj (hbound.symm.trans (htaken rest))⟩,
    fun c hc => hunseen hempty c ?_⟩
  rintro rfl
  exact hc rfl

theorem proceeds_parameters :
    Leads Proceeds (parameters f) s fun a s' => s'.2.Remainder subject.params a := by
  refine (proceeds_ask hp hnew hf .never (fun p => { params := [restParam p], result := .any }) none
    (some "P") none
    id (fun hg hx => leads_restFunction hg hx.lt_size (hg.valid_intrinsic .any))
    (fun hx => ⟨.inl rfl, .inl rfl, .inr (by simp), rfl, ⟨_, rfl, .infer hx.form⟩, .any⟩)
    (.inl (by simp)) (fun h => by cases h) fun rest => by simp [filled, Matcher.get?_fill]).mono ?_
  rintro a s' _ ⟨⟨rest, hremainder, rfl⟩, _⟩
  exact hremainder

variable (hrest : ∀ slot, subject.params = [slot] → slot.rest = false)

include hrest

theorem proceeds_returnType : Leads Proceeds (returnType f) s fun a _ => a = subject.result := by
  refine (proceeds_ask hp hnew hf .never (fun r => { params := [restParam .any], result := r }) none
    none (some "R")
    (fun _ => subject.result) (fun hg hx =>
      leads_restFunction hg (hg.valid_intrinsic .any) hx.lt_size)
    (fun hx => ⟨.inl rfl, .inl rfl, .inl rfl, rfl, ⟨.any, rfl, .any⟩, .infer hx.form⟩)
    (.inr (.inl (by simp))) (fun _ => hrest) fun rest => by
      simp [filled, Matcher.get?_fill]).mono ?_
  rintro a s' _ ⟨⟨rest, _, ha⟩, _⟩
  exact ha

/-- A function that asks for no receiver is as good as one that takes an `unknown` one. -/
theorem proceeds_receiverType : Leads Proceeds (receiverType f) s fun a s' =>
    a = subject.receiver.getD .unknown ∧ ∀ c : Conditional, c.param ≠ none → Unseen c s' := by
  refine (proceeds_ask hp hnew hf .unknown
    (fun u => { receiver := some u, params := [restParam .any], result := .any })
    (some "U") none none
    (fun _ => subject.receiver.getD .unknown) (fun {_ u} hg hx => ?_)
    (fun hx => ⟨.inr (by simp), .inr (by simp), .inl rfl, ⟨"U", rfl, hx.form⟩,
      ⟨.any, rfl, .any⟩, .any⟩)
    (.inr (.inr (by simp))) (fun _ => hrest) fun rest => by
      simp [filled, Matcher.get?_fill]).mono ?_
  · refine (Discipline.runs_mkFunction hg fun c hc => fit_typed ?_).leads.mono fun _ _ h₁ h =>
      h.typed (h₁.good hg)
    have hc : c = u ∨ c = .any := by simpa [restParam, Form.mentions] using hc
    rcases hc with rfl | rfl
    · exact hx.lt_size
    · exact hg.valid_intrinsic .any
  · rintro a s' _ ⟨⟨rest, _, ha⟩, hunseen⟩
    exact ⟨ha, hunseen⟩

end Operators

theorem proceeds_choose_template (hp : Proper s) {a r t f : TypeId} {subject : Signature}
    (ht : Template s.2 a r t) (hf : s.2.ClosedFunction f subject) {no : TypeId}
    (hno : no < s.2.size) (param : Option String) :
    let c : Conditional := { param, pattern := t, yes := t, no, distributive := true }
    Unseen c s → Leads Proceeds (choose c f) s fun answer s' => s'.2.Rejoined subject answer := by
  intro c hnew
  have hg := hp.ready.good
  have hpresented : Presented s.2 f c.pattern subject _ none (some "A") (some "R") :=
    hf.presented ht.function.form ht.open (.inl (by simp))
  refine (proceeds_choose_open hp rfl ⟨ht.function.lt_size, hno⟩ hpresented
    (fun h => by cases h) hnew).mono ?_
  rintro answer s' _ ⟨⟨rest, st₁, h₁, hremainder, hrun⟩, _⟩
  have hvalid : ∀ u ∈ (Form.function subject).mentions, u < st₁.size := by
    intro u hu
    rw [← Store.mentions_of_form hf.form] at hu
    exact Nat.lt_of_lt_of_le (hg.wellFormed.anchored.inside hu) h₁.grown.size
  unfold instantiate at hrun
  cases param with
  | none => exact ((ht.later hg h₁.grown).rejoins (h₁.good hg) hvalid hremainder rfl rfl rfl hrun).2
  | some name =>
    exact ((ht.later hg h₁.grown).rejoins (h₁.good hg) hvalid hremainder rfl rfl rfl hrun).2

/-- What asks for anything takes what is `unknown`. -/
theorem run_matches_top {t : TypeId} (ht : t.isTop = true) (s : State) (hf : s.2.Founded) :
    ∃ bindings, Action.run (matches? .unknown t) s = (some bindings, s) := by
  obtain ⟨below, hbelow⟩ := Matcher.descend_eq_step (fun _ => return false) s.1.limits.depth
  have hasked : Action.run (matches? .unknown t) s =
      let r :=
        Action.run (descend Matcher.step (fun _ => return false) s.1.limits.depth
          ⟨.unknown, t, .covariant⟩)
        (Matcher.start s.1.limits, s.2)
      (if r.1 then some r.2.1.bindings else none, s.1, r.2.2) := rfl
  have hstep : Action.run (Matcher.step below ⟨.unknown, t, .covariant⟩)
      (Matcher.start s.1.limits, s.2) =
      (true, Matcher.start s.1.limits, s.2) := by
    have ht : t = .any ∨ t = .unknown := by simpa [TypeId.isTop] using ht
    rcases ht with rfl | rfl
    · have hl : s.2.lookup TypeId.any = some (.intrinsic .any) := hf.lookup .any
      unfold Matcher.step
      rw [if_neg (by decide), Action.run_bind, Matcher.run_getStore]
      simp only [hl]
      rfl
    · exact Matcher.run_step_same rfl
  rw [hbelow, hstep] at hasked
  exact ⟨_, hasked⟩

section Operators

variable (hp : Proper s) (hnew : s.1.memo = .empty) {f : TypeId} {subject : Signature}
  (hf : s.2.ClosedFunction f subject)

include hp hnew hf

theorem proceeds_inferFunction :
    Leads Proceeds (inferFunction f) s fun answer s' => s'.2.Rejoined subject answer := by
  have hg := hp.ready.good
  apply (proceeds_lift (leads_openSignature hg)).bind
  rintro t s₁ h₁ ⟨he₁, a, r, ht⟩
  exact proceeds_choose_template (hp.later h₁) ht (hf.later hg.wellFormed h₁.upholds.store.grown)
    ((h₁.upholds.store.good hg).valid_intrinsic .never) none (unseen_of_empty (by rw [he₁, hnew]) _)

/-- A function that asks for no receiver, or for any, takes `unknown`. -/
theorem proceeds_acceptsAnyReceiver (hrest : ∀ slot, subject.params = [slot] → slot.rest = false) :
    Leads Proceeds (acceptsAnyReceiver f) s fun b s' => b = (subject.receiver.getD .unknown).isTop ∧
      ∀ c : Conditional, c.param ≠ none → Unseen c s' := by
  have hg := hp.ready.good
  apply (proceeds_receiverType hp hnew hf hrest).bind
  rintro receiver s₁ h₁ ⟨rfl, hunseen⟩
  have hp₁ := hp.later h₁
  have hf₁ := hf.later hg.wellFormed h₁.upholds.store.grown
  have hmatch : ∃ found, Action.run (matches? .unknown (subject.receiver.getD .unknown)) s₁ =
      (found, s₁) ∧
      found.isSome = (subject.receiver.getD .unknown).isTop := by
    cases htop : (subject.receiver.getD .unknown).isTop with
    | true =>
      obtain ⟨bindings, hrun⟩ := run_matches_top htop s₁ hp₁.wellFormed.founded
      exact ⟨_, hrun, rfl⟩
    | false =>
      have hfree : s₁.2.InferFree (subject.receiver.getD .unknown) := by
        cases hr : subject.receiver with
        | none =>
          rw [hr] at htop
          cases htop
        | some t =>
          apply hf₁.free.child
          rw [Store.mentions_of_form hf₁.form]
          simp [Form.mentions, hr]
      have hrun := Matcher.run_matchPattern_unknown hp₁.tidy hp₁.anchored htop hfree s₁.1.limits
      exact ⟨none, by rw [run_matches, hrun], rfl⟩
  obtain ⟨found, hrun, hfound⟩ := hmatch
  have hasked : Leads Proceeds (matches? .unknown (subject.receiver.getD .unknown)) s₁
      fun answer s' =>
      answer = found ∧ s' = s₁ := by
    rw [Leads, hrun]
    exact ⟨Evolution.refl s₁, rfl, rfl⟩
  apply hasked.bind
  rintro _ _ _ ⟨rfl, rfl⟩
  exact Leads.pure ⟨hfound, hunseen⟩

/-- A receiver that is asked for is left out, and the function is put together again. -/
theorem proceeds_omitReceiver (hrest : ∀ slot, subject.params = [slot] → slot.rest = false) :
    Leads Proceeds (omitReceiver f) s fun answer s' =>
      if (subject.receiver.getD .unknown).isTop then answer = f
      else s'.2.Rejoined subject answer := by
  have hg := hp.ready.good
  apply (proceeds_acceptsAnyReceiver hp hnew hf hrest).bind
  rintro b s₁ h₁ ⟨rfl, hunseen⟩
  cases htop : (subject.receiver.getD .unknown).isTop with
  | true => exact Leads.pure rfl
  | false =>
    have hg₁ := h₁.upholds.store.good hg
    apply (proceeds_lift (leads_openSignature hg₁)).bind
    rintro t s₂ h₂ ⟨he₂, a, r, ht⟩
    have hg₂ := h₂.upholds.store.good hg₁
    apply (proceeds_lift (Discipline.runs_mkParam hg₂ subjectName).leads).bind
    rintro self s₃ h₃ ⟨he₃, hself⟩
    have h := Evolution.trans h₁ (Evolution.trans h₂ h₃)
    have hself := hself.typed (h₃.upholds.store.good hg₂)
    have hlater := (Evolution.trans h₂ h₃).upholds.store.grown
    apply proceeds_choose_template (hp.later h) (ht.later hg₂ h₃.upholds.store.grown)
      (hf.later hg.wellFormed h.upholds.store.grown) hself.lt_size
    let asked : Conditional :=
      { param := some subjectName, pattern := t, yes := t, no := self, distributive := true }
    have hunseen₃ := (hunseen asked (by simp [asked])).later hlater
    rw [← he₂, ← he₃] at hunseen₃
    exact hunseen₃

end Operators

/-- A function or a constructor that is matched against an open one is put together again from what
was found. -/
theorem proceeds_rejoin (hp : Proper s) {a r t p f : TypeId} {subject : Signature}
    (ht : Template s.2 a r t)
    (h : Presented s.2 f p subject { params := [restParam a], result := r } none
      (some "A") (some "R")) :
    Leads Proceeds (matches? f p) s fun found s' => ∃ bindings, found = some bindings ∧
      Leads Proceeds (liftM (replaceInfers bindings t) : EvalM TypeId) s' fun answer s'' =>
        s''.2.Rejoined subject answer := by
  have hg := hp.ready.good
  obtain ⟨rest, st₁, hrun, hremainder⟩ :=
    Matcher.run_matchPattern_open hg.wellFormed hp.positive h.faces h.differ
    h.free h.opened fun h => by cases h
  have hmatch : Action.run (matchPattern f p s.1.limits) s.2 = _ := hrun
  have hev := (runs_matchPattern (r := (Discipline.rules .typed).toBuildRules) hg
    (fit_typed h.faces.lt_size.1) (fit_typed h.faces.lt_size.2) s.1.limits).leads.1
  rw [hmatch] at hev
  rw [Leads, run_matches, hrun]
  refine ⟨.lift hev, _, rfl, ?_⟩
  have hvalid : ∀ u ∈ (Form.function subject).mentions, u < st₁.size := by
    intro u hu
    rw [← h.faces.mentions] at hu
    exact Nat.lt_of_lt_of_le (hg.wellFormed.anchored.inside hu) hev.grown.size
  obtain ⟨hbuilt, hrejoined⟩ := (ht.later hg hev.grown).rejoins
    (s := .ofBindings (filled subject none (some "A") (some "R") rest)) (hev.good hg) hvalid
    hremainder rfl rfl rfl rfl
  exact leads_lift (.lift hbuilt) hrejoined

def recast (constructorPattern functionPattern template member : TypeId) : EvalM TypeId := do
  match ← matches? member constructorPattern with
  | some bindings => replaceInfers bindings template
  | none => match ← matches? member functionPattern with
    | some bindings => replaceInfers bindings template
    | none => return .never

section Recast

variable {f : TypeId} {subject : Signature}
  (hf : s.2.form? f = some (.function subject) ∨ s.2.form? f = some (.constructor subject))
  (hfree : s.2.InferFree f)

include hf hfree

theorem proceeds_recast (hp : Proper s) {a r t k p : TypeId} (ht : Template s.2 a r t)
    (hk : Made (.constructor { params := [restParam a], result := r }) k s.2)
    (hpattern : Made (.function { params := [restParam a], result := r }) p s.2) :
    Leads Proceeds (recast k p t f) s fun answer s' => s'.2.Rejoined subject answer := by
  have hsome : some "A" ≠ none ∨ some "R" ≠ none ∨ (none : Option String) ≠ none := .inl (by simp)
  unfold recast
  rcases hf with hf | hf
  · have hno : Leads Proceeds (matches? f k) s fun found s' => found = none ∧ s' = s := by
      rw [Leads, run_matches, Matcher.run_matchPattern_constructor hp.wellFormed
        hp.positive hf hk.form]
      exact ⟨Evolution.refl s, rfl, rfl⟩
    apply hno.bind
    rintro _ _ - ⟨rfl, rfl⟩
    apply (proceeds_rejoin hp ht (.of_open ht.open (.functions hf hpattern.form) hfree hsome)).bind
    rintro _ s' _ ⟨bindings, rfl, hrejoins⟩
    exact hrejoins
  · apply (proceeds_rejoin hp ht (.of_open ht.open (.constructors hf hk.form) hfree hsome)).bind
    rintro _ s' _ ⟨bindings, rfl, hrejoins⟩
    exact hrejoins

/-- With no wrappers in view, a function or constructor becomes the function with its parameters and
result. -/
theorem proceeds_inferFunctionOrConstructor (hp : Proper s) :
    Leads Proceeds (inferFunctionOrConstructor [] f) s fun answer s' =>
    s'.2.Rejoined subject answer := by
  have hg := hp.ready.good
  apply (proceeds_lift (Discipline.runs_mkInfer hg "A").leads).bind
  rintro a s₁ h₁ ⟨-, ha⟩
  have hg₁ := h₁.upholds.store.good hg
  have ha := ha.typed hg₁
  apply (proceeds_lift (Discipline.runs_mkInfer hg₁ "R").leads).bind
  rintro r s₂ h₂ ⟨-, hr⟩
  have hg₂ := h₂.upholds.store.good hg₁
  have hr := hr.typed hg₂
  have ha₂ := ha.later hg₁.wellFormed h₂.upholds.store.grown
  have hp₂ := hp.later (Evolution.trans h₁ h₂)
  have hself : Leads Proceeds (liftM (Store.mkUnion [r]) : EvalM TypeId) s₂ fun result s' =>
      result = r ∧ s' = s₂ := by
    have hrun : Action.run (liftM (Store.mkUnion [r]) : EvalM TypeId) s₂ =
      (((Store.mkUnion [r]).run s₂.2).1, s₂.1, ((Store.mkUnion [r]).run s₂.2).2) := rfl
    rw [Leads, hrun, Store.mkUnion_self hp₂.tidy hp₂.reached.shared hp₂.anchored r]
    exact ⟨Evolution.refl s₂, rfl, rfl⟩
  rw [List.mapM_nil, pure_bind]
  apply hself.bind
  rintro _ _ - ⟨rfl, rfl⟩
  apply (proceeds_lift (leads_restFunction hg₂ ha₂.lt_size hr.lt_size)).bind
  rintro t s₃ h₃ ⟨-, ht⟩
  have hg₃ := h₃.upholds.store.good hg₂
  have ht₃ : Template s₃.2 a _ t := ⟨ha₂.later hg₂.wellFormed h₃.upholds.store.grown,
    hr.later hg₂.wellFormed h₃.upholds.store.grown, ht⟩
  apply (proceeds_lift (leads_restConstructor hg₃ ht₃.args.lt_size ht₃.result.lt_size)).bind
  rintro k s₄ h₄ ⟨-, hk⟩
  have hg₄ := h₄.upholds.store.good hg₃
  have ht₄ := ht₃.later hg₃ h₄.upholds.store.grown
  apply (proceeds_lift (leads_restFunction hg₄ ht₄.args.lt_size ht₄.result.lt_size)).bind
  rintro p s₅ h₅ ⟨-, hpattern⟩
  have h := Evolution.trans h₁ (Evolution.trans h₂ (Evolution.trans h₃ (Evolution.trans h₄ h₅)))
  have hp₅ := hp.later h
  have hgrown := h.upholds.store.grown
  have hlt : f < s.2.size := by
    rcases hf with hf | hf <;> exact Store.lt_size_of_form hf
  rw [← hg.wellFormed.form_extends hgrown hlt] at hf
  rw [← hg.wellFormed.inferFree_extends hgrown hlt] at hfree
  have hone : s₅.2.unionMembers f = [f] :=
    Store.unionMembers_of_signature hp₅.tidy hp₅.wellFormed.founded hf
  have hread : Action.run (liftM (get : StoreM Store) : EvalM Store) s₅ = (s₅.2, s₅) := rfl
  have hdistribute : Action.run (Store.distribute f (recast k p t)) s₅ =
      Action.run (recast k p t f) s₅ := by
    unfold Store.distribute
    rw [Action.run_bind, hread, hone]
  show Leads Proceeds (Store.distribute f (recast k p t)) s₅ _
  rw [Leads, hdistribute]
  exact proceeds_recast hf hfree hp₅ (ht₄.later hg₄ h₅.upholds.store.grown)
    (hk.later hg₄.wellFormed h₅.upholds.store.grown) hpattern

end Recast

section Answers

variable {st : Store} (hg : Discipline.Good .typed st) {subject : Signature}
  {operator : EvalM TypeId}

include hg

theorem answersWith_type {t : TypeId} (h : Leads Proceeds operator (start, st) fun a _ => a = t) :
    AnswersWith st operator (return t) :=
  answersWith_of_leads hg (h.mono fun a s' _ ha => by rw [ha]; rfl) (Q := fun _ _ => True)
    fun _ _ => Runs.pure trivial

variable (hvalid : ∀ t ∈ (Form.function subject).mentions, t < st.size)

include hvalid

theorem answersWith_function {params : List Slot} (hparams : ∀ slot ∈ params, slot.type < st.size)
    (h : Leads Proceeds operator (start, st) fun a s' =>
      (Store.mkFunction { params, result := subject.result }).run s'.2 = (a, s'.2)) :
    AnswersWith st operator (Store.mkFunction { params, result := subject.result }) := by
  apply answersWith_of_leads hg h
  intro st' hev
  apply Discipline.runs_mkFunction (hev.good hg)
  intro c hc
  simp only [Form.mentions, Option.toList_none, List.nil_append, List.mem_append, List.mem_map,
    List.mem_singleton] at hc
  apply fit_typed
  apply Nat.lt_of_lt_of_le _ hev.grown.size
  rcases hc with ⟨slot, hm, rfl⟩ | rfl
  · exact hparams slot hm
  · exact hvalid _ (by simp [Form.mentions])

variable (hslots : ∀ slot ∈ subject.params, slot.type < st.size)
  (hn : ∀ slot, subject.params = [slot] → slot.rest = false)

include hslots hn

theorem answersWith_rejoined
    (h : Leads Proceeds operator (start, st) fun a s' => s'.2.Rejoined subject a) :
    AnswersWith st operator (Store.mkFunction
      { params := subject.params, result := subject.result }) := by
  apply answersWith_function hg hvalid hslots
  refine h.mono fun a s' hs' hrejoined =>
    hrejoined.same (hs'.upholds.store.good hg).wellFormed ?_ hn
  exact fun slot hm => Nat.lt_of_lt_of_le (hslots slot hm) hs'.size

omit hvalid in
theorem answersWith_tuple
    (h : Leads Proceeds operator (start, st) fun a s' => s'.2.Remainder subject.params a) :
    AnswersWith st operator (Store.mkTuple subject.params) := by
  apply answersWith_of_leads hg (h.mono fun a s' _ hremainder => hremainder.tuple hn)
  intro st' hev
  apply Discipline.runs_mkTuple (hev.good hg)
  intro c hc
  obtain ⟨slot, hm, rfl⟩ := List.mem_map.mp hc
  exact fit_typed (Nat.lt_of_lt_of_le (hslots slot hm) hev.grown.size)

end Answers

end Evaluator

namespace Operation

open Evaluator

/-- A function that is taken apart is the same again when it is put together, but for the receiver,
which only `omitReceiver` looks at. Only a rest parameter that stands alone is named anew, and is no
longer optional. -/
theorem signature_taken_apart {ops : List Operation} (h : AllAccepted .typed .initial ops)
    {f : TypeId} {subject : Signature} (hf : (afterAll .initial ops).ClosedFunction f subject) :
    let st := afterAll .initial ops
    let plain := Store.mkFunction { params := subject.params, result := subject.result }
    ((∀ slot, subject.params = [slot] → slot.rest = false) →
      AnswersWith st (parameters f) (Store.mkTuple subject.params) ∧
      AnswersWith st (returnType f) (return subject.result) ∧
      AnswersWith st (inferFunction f) plain ∧
      AnswersWith st (inferFunctionOrConstructor [] f) plain ∧
      (∀ c, st.form? c =
        some (.constructor { params := subject.params, result := subject.result }) →
        AnswersWith st (inferFunctionOrConstructor [] c) plain) ∧
      (∀ t, subject.receiver = some t → t ≠ .any → t ≠ .unknown →
        AnswersWith st (omitReceiver f) plain) ∧
      ((∀ t, subject.receiver = some t → t = .any ∨ t = .unknown) →
        AnswersWith st (omitReceiver f) (return f))) ∧
    ∀ slot, subject.params = [slot] → slot.rest = true →
    (∀ slots, st.form? slot.type ≠ some (.tuple slots)) →
      AnswersWith st (parameters f) (return slot.type) ∧
      AnswersWith st (inferFunction f) (Store.mkFunction
        { params := [{ type := slot.type, name := some "args", rest := true }],
          result := subject.result }) := by
  intro st plain
  have hg : Discipline.Good .typed st := h.good
  have hp := proper_start hg (reached_afterAll .initial ops)
  have hvalid : ∀ t ∈ (Form.function subject).mentions, t < st.size := by
    intro t ht
    rw [← Store.mentions_of_form hf.form] at ht
    exact hg.wellFormed.anchored.inside ht
  have hslots : ∀ slot ∈ subject.params, slot.type < st.size := fun slot hm =>
    hvalid _ (Form.slot_mentioned (f := .function subject) hm)
  refine ⟨fun hn => ⟨?_, ?_, ?_, ?_, fun c hc => ?_, fun t ht hany hunknown => ?_, fun htop => ?_⟩,
    fun slot hone hr hn => ⟨?_, ?_⟩⟩
  · exact answersWith_tuple hg hslots hn (proceeds_parameters hp rfl hf)
  · exact answersWith_type hg (proceeds_returnType hp rfl hf hn)
  · exact answersWith_rejoined hg hvalid hslots hn (proceeds_inferFunction hp rfl hf)
  · exact answersWith_rejoined hg hvalid hslots hn
      (proceeds_inferFunctionOrConstructor (.inl hf.form) hf.free hp)
  · have hrejoins :=
      proceeds_inferFunctionOrConstructor (s := (start, st)) (.inr hc) (hf.constructor hc) hp
    exact answersWith_rejoined hg hvalid hslots hn hrejoins
  · apply answersWith_rejoined hg hvalid hslots hn
    refine (proceeds_omitReceiver hp rfl hf hn).mono fun a s' _ ha => ?_
    rwa [ht, if_neg (by simp [TypeId.isTop, hany, hunknown])] at ha
  · apply answersWith_type hg
    refine (proceeds_omitReceiver hp rfl hf hn).mono fun a s' _ ha => ?_
    rwa [if_pos] at ha
    cases hr : subject.receiver with
    | none => rfl
    | some t => rcases htop t hr with rfl | rfl <;> rfl
  · apply answersWith_type hg
    refine (proceeds_parameters hp rfl hf).mono fun a s' _ hremainder => ?_
    rw [hone] at hremainder
    exact hremainder.rest hr
  · apply answersWith_function hg hvalid
    · intro other hm
      rw [List.mem_singleton.mp hm]
      exact hslots slot (by simp [hone])
    · refine (proceeds_inferFunction hp rfl hf).mono fun a s' hs' hrejoined =>
        hrejoined.lone hone hr fun slots => ?_
      rw [hg.wellFormed.form_extends hs'.upholds.store.grown (hslots slot (by simp [hone]))]
      exact hn slots

def method : Signature where
  receiver := some 12
  params := [{ type := .string, name := some "first" }, { type := .number, optional := true },
    { type := 13, name := some "more", rest := true }]
  result := .boolean

def variadic : Signature where
  params := [{ type := 13, name := some "more", rest := true }]
  result := .boolean

/-- The method, a constructor with the same parameters, and the function. -/
def methods : List Operation :=
  [.build (.object { fields := [{ name := "a", type := .string }] }), .build (.array .number),
    .build (.function method), .build (.constructor method.params method.result),
    .build (.function variadic)]

theorem signature_taken_apart_method :
    AllAccepted .typed .initial methods ∧
    let st := afterAll .initial methods
    let plain := Store.mkFunction { params := method.params, result := .boolean }
    (st.ClosedFunction 14 method ∧ AnswersWith st (parameters 14) (Store.mkTuple method.params) ∧
      AnswersWith st (returnType 14) (return .boolean) ∧
      AnswersWith st (inferFunctionOrConstructor [] 15) plain ∧
      AnswersWith st (omitReceiver 14) plain) ∧
    st.ClosedFunction 16 variadic ∧ AnswersWith st (parameters 16) (return 13) ∧
      AnswersWith st (inferFunction 16) (Store.mkFunction
        { params := [{ type := 13, name := some "args", rest := true }], result := .boolean }) := by
  have haccepted : AllAccepted .typed .initial methods := allAccepted_of_builds (by decide +kernel)
  have hfounded := (reached_afterAll .initial methods).founded
  have hmethod : (afterAll .initial methods).ClosedFunction 14 method :=
    ⟨by decide +kernel, (Store.containsInfer_eq_false hfounded).mp (by decide +kernel)⟩
  have hvariadic : (afterAll .initial methods).ClosedFunction 16 variadic :=
    ⟨by decide +kernel, (Store.containsInfer_eq_false hfounded).mp (by decide +kernel)⟩
  obtain ⟨hparameters, hresult, _, _, hconstructor, homit, _⟩ :=
    (signature_taken_apart haccepted hmethod).1 fun slot h => by cases h
  have harray : (afterAll .initial methods).form? 13 = some (.array .number) := by decide +kernel
  obtain ⟨hlone, hnamed⟩ :=
    (signature_taken_apart haccepted hvariadic).2 _ rfl rfl fun slots h => by
    cases harray.symm.trans h
  exact ⟨haccepted, ⟨hmethod, hparameters, hresult, hconstructor 15 (by decide +kernel),
    homit 12 rfl (by decide) (by decide)⟩, hvariadic, hlone, hnamed⟩

/-- A function whose result is the type that comes next. -/
def hastyResult : Signature := { params := [], result := 13 }

/-- A function whose rest parameter is called as it would be anyway, and is optional, too. -/
def optionalRest : Signature where
  params := [{ type := 12, name := some "args", optional := true, rest := true }]
  result := .void

/-- A result that is not there yet turns out to be the variable that it is asked for with. And a
rest parameter that stands alone comes back with its type alone. -/
theorem signature_changes_taken_apart :
    (let st := afterAll .initial [.build (.function hastyResult)]
     st.ClosedFunction 12 hastyResult ∧ (Action.run (returnType 12) (start, st)).1 = .never) ∧
    let ops := [.build (.array .string), .build (.function optionalRest)]
    let st := afterAll .initial ops
    AllAccepted .typed .initial ops ∧ st.ClosedFunction 13 optionalRest ∧
      let r := Action.run (inferFunction 13) (start, st)
      r.1 ≠ 13 ∧ r.2.2.form? r.1 =
        some (.function
          { params := [{ type := 12, name := some "args", rest := true }], result := .void }) := by
  have hfounded (ops : List Operation) := (reached_afterAll .initial ops).founded
  refine ⟨⟨⟨by decide +kernel, ?_⟩, by decide +kernel⟩, allAccepted_of_builds (by decide +kernel),
    ⟨by decide +kernel, ?_⟩, by decide +kernel, by decide +kernel⟩
  · exact (Store.containsInfer_eq_false (hfounded _)).mp (by decide +kernel)
  · exact (Store.containsInfer_eq_false (hfounded _)).mp (by decide +kernel)

end Operation

end TypeCalculus
