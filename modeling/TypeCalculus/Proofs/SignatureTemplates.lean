import TypeCalculus.Proofs.OpenSignatures

namespace TypeCalculus

open Store (Made)

theorem Store.Made.later {st st' : Store} {f : Form} {t : TypeId} (h : Made f t st)
    (hw : st.WellFormed) (he : st.Extends st') : Made f t st' :=
  ⟨(hw.form_extends he h.lt_size).trans h.form, (he.isReserved h.lt_size).trans h.interned⟩

theorem Store.Remainder.later {st st' : Store} {slots : List Slot} {t : TypeId}
    (h : st.Remainder slots t) (hg : Discipline.Good .typed st)
    (hvalid : ∀ slot ∈ slots, slot.type < st.size) (he : st.Extends st') :
    st'.Remainder slots t := by
  by_cases hlone : ∃ slot, slots = [slot] ∧ slot.rest = true
  · obtain ⟨slot, rfl, hr⟩ := hlone
    rw [h.rest hr]
    unfold Remainder Matcher.remainder
    simp only [hr]
    rfl
  · have hn (slot : Slot) (hs : slots = [slot]) : slot.rest = false := by
      rw [← Bool.not_eq_true]
      exact fun hr => hlone ⟨slot, hs, hr⟩
    have hrun : Action.run (Store.mkTuple slots) st = (t, st) := h.tuple hn
    have hecho := (Discipline.runs_mkTuple hg fun c hc => by
      obtain ⟨slot, hm, rfl⟩ := List.mem_map.mp hc
      exact Evaluator.fit_typed (hvalid slot hm)).echo st'
    rw [hrun] at hecho
    have hagain : (Store.mkTuple slots).run st' = (t, st') :=
      hecho ⟨(fun h => by cases h), he.widens, fun _ => he⟩
    unfold Remainder Matcher.remainder
    split
    · rename_i only
      rw [if_neg (by simp [hn only rfl])]
      exact hagain
    · exact hagain

theorem Store.Remainder.lt_size {st : Store} {slots : List Slot} {t : TypeId}
    (h : st.Remainder slots t) (hw : st.WellFormed) (hvalid : ∀ slot ∈ slots, slot.type < st.size) :
    t < st.size := by
  by_cases hlone : ∃ slot, slots = [slot] ∧ slot.rest = true
  · obtain ⟨slot, rfl, hr⟩ := hlone
    rw [h.rest hr]
    exact hvalid slot (by simp)
  · have hsome := h.defined hw hvalid fun slot hs hr => absurd ⟨slot, hs, hr⟩ hlone
    obtain ⟨form, hform⟩ := Option.isSome_iff_exists.mp hsome
    exact lt_size_of_form hform

/-- The type is the function with the parameters and the result of a signature, where a rest
parameter that stands alone was named anew. -/
def Store.Rejoined (st : Store) (subject : Signature) (a : TypeId) : Prop :=
  ∃ rest, st.Remainder subject.params rest ∧
    (Store.mkFunction
      { params := st.splice (Evaluator.restParam rest) rest, result := subject.result }).run st =
        (a, st)

section Rejoined

variable {st : Store} {subject : Signature} {a : TypeId}

/-- Parameters that were taken together are the same as before when they are spread out again. -/
theorem Store.Rejoined.same (h : st.Rejoined subject a) (hw : st.WellFormed)
    (hvalid : ∀ slot ∈ subject.params, slot.type < st.size)
    (hn : ∀ slot, subject.params = [slot] → slot.rest = false) :
    (Store.mkFunction { params := subject.params, result := subject.result }).run st = (a, st) := by
  obtain ⟨rest, hremainder, hrun⟩ := h
  have htuple : Action.run (Store.mkTuple subject.params) st = (rest, st) := hremainder.tuple hn
  have hmade := (leads_mkTuple hw fun c hc => by
    obtain ⟨slot, hm, rfl⟩ := List.mem_map.mp hc
    exact hvalid slot hm).2
  rw [htuple] at hmade
  have hsplice : st.splice (Evaluator.restParam rest) rest = subject.params := by
    unfold splice
    rw [hmade.form]
    rfl
  rwa [hsplice] at hrun

/-- A rest parameter that stands alone is named anew. -/
theorem Store.Rejoined.lone (h : st.Rejoined subject a) {slot : Slot}
    (hone : subject.params = [slot]) (hr : slot.rest = true)
    (hn : ∀ slots, st.form? slot.type ≠ some (.tuple slots)) :
    (Store.mkFunction
      { params := [Evaluator.restParam slot.type], result := subject.result }).run st =
        (a, st) := by
  obtain ⟨rest, hremainder, hrun⟩ := h
  rw [hone] at hremainder
  obtain rfl := hremainder.rest hr
  have hsplice : st.splice (Evaluator.restParam slot.type) slot.type =
      [Evaluator.restParam slot.type] := by
    unfold splice
    split
    · rename_i slots _ hform
      exact absurd hform (hn slots)
    · rfl
  rwa [hsplice] at hrun

/-- What is built of the parameters that were taken together is found again. -/
theorem Store.rejoined_of_run (hg : Discipline.Good .typed st)
    (hvalid : ∀ t ∈ (Form.function subject).mentions, t < st.size) {rest : TypeId}
    (hremainder : st.Remainder subject.params rest) {args : TypeId} {st' : Store}
    (hrun : (Store.mkFunction
      { params := st.splice (Evaluator.restParam args) rest, result := subject.result }).run st =
        (a, st')) : Discipline.Evolves .typed st st' ∧ st'.Rejoined subject a := by
  have hslots : ∀ slot ∈ subject.params, slot.type < st.size := fun slot hm =>
    hvalid _ (Form.slot_mentioned (f := .function subject) hm)
  have hrest := hremainder.lt_size hg.wellFormed hslots
  have hparts : ∀ c ∈ (Form.function
      { params := st.splice (Evaluator.restParam args) rest, result := subject.result }).mentions,
      Discipline.Fit .typed st c := by
    intro c hc
    apply Evaluator.fit_typed
    simp only [Form.mentions, Option.toList_none, List.nil_append, List.mem_append, List.mem_map,
      List.mem_singleton] at hc
    rcases hc with ⟨slot, hm, rfl⟩ | rfl
    · rcases mem_splice hm with heq | hin
      · rwa [heq]
      · exact hg.wellFormed.anchored.inside hin
    · exact hvalid _ (by simp [Form.mentions])
  have hruns := Discipline.runs_mkFunction hg hparts
  have hstart : Action.run (Store.mkFunction _) st = (a, st') := hrun
  have hev := hruns.leads.1
  have hagain := hruns.echo st'
  rw [hstart] at hev hagain
  refine ⟨hev, rest, hremainder.later hg hslots hev.grown, ?_⟩
  rw [splice_congr _ (hg.wellFormed.form_extends hev.grown hrest)]
  exact hagain ⟨(fun h => by cases h), .refl _, fun _ => .refl _⟩

end Rejoined

namespace Substitution

/-- A type that mentions something to be replaced is rebuilt in a visit. -/
theorem run_step_rebuild (replace : TypeId → SubstM TypeId) {s : State} {t : TypeId}
    (hf : s.2.Founded) {node : Node} (hc : s.2.cells[t]? = some (.interned node))
    (hn : ∀ kind, node ≠ .intrinsic kind) (hbound : ¬ s.2.Unbound s.1.params t)
    (hm : s.1.memo.get? t = none) (hnew : t ∉ s.1.guard.visiting)
    (hroom : s.1.guard.depth < s.1.guard.limits.depth)
    (hcount : s.1.guard.iterations < s.1.guard.limits.iterations) :
    ∃ g, Guard.Inside t s.1.guard g ∧ g.iterations ≤ s.1.guard.iterations + 1 ∧
      Action.run (step replace t) s =
        let r := Action.run (rebuild replace t) ({ s.1 with guard := g }, s.2)
        (r.1, { r.2.1 with memo := r.2.1.memo.insert t r.1, guard := r.2.1.guard.leave t },
          r.2.2) := by
  obtain ⟨g, henter, hinside, hiterations, _⟩ := Guard.enter_new (by omega) hroom hnew
  have hl : s.2.lookup t = some node := by simp [Store.lookup, hc, Cell.node?]
  have hplain : ¬ t.isIntrinsic = true := by
    intro hi
    obtain ⟨kind, rfl⟩ := TypeId.isIntrinsic_iff.mp hi
    exact hn kind (Option.some.inj ((hf.lookup kind).symm.trans hl)).symm
  have hscan : s.2.containsBound s.1.params.contains t = true := by
    rw [← Bool.not_eq_false, Store.containsBound_eq_false hf]
    exact hbound
  have hreserved : s.2.isReserved t = false := by simp [Store.isReserved, hc]
  have hget : Action.run (get : SubstM Substitution) s = (s.1, s) := rfl
  have hstore (s : State) : Action.run (getThe Store : SubstM Store) s = (s.2, s) := rfl
  have henter : (Guarded.guard s.1).enter t = (.entered, g) := henter
  refine ⟨g, hinside, by omega, ?_⟩
  unfold step
  rw [if_neg hplain, Action.run_bind, hget]
  simp only [hm]
  rw [Action.run_bind, hstore]
  simp only [hscan, if_true]
  rw [run_visit, henter]
  simp only
  unfold rebuildAny
  rw [Action.run_bind, hstore]
  have hreserved' : (Guarded.setGuard g s.1, s.2).2.isReserved t = false := hreserved
  rw [hreserved']
  rfl

structure ReplacedInfer (t : TypeId) (s s' : State) : Prop where
  store : s'.2 = s.2
  infers : s'.1.infers = s.1.infers
  guard : s.1.guard.Kept s'.1.guard
  counted : s'.1.guard.iterations ≤ s.1.guard.iterations + 1
  memo {u : TypeId} : u ≠ t → s'.1.memo.get? u = s.1.memo.get? u

/-- A variable is replaced in a visit of its own. -/
theorem run_step_infer (replace : TypeId → SubstM TypeId) {s : State} {t x : TypeId}
    (hf : s.2.Founded) {name : String} (hc : s.2.cells[t]? = some (.interned (.infer name)))
    (hx : s.1.infers.get? name = some x) (hm : s.1.memo.get? t = none)
    (hnew : t ∉ s.1.guard.visiting) (hroom : s.1.guard.depth < s.1.guard.limits.depth)
    (hcount : s.1.guard.iterations < s.1.guard.limits.iterations) :
    ∃ s', Action.run (step replace t) s = (x, s') ∧ ReplacedInfer t s s' := by
  have hl : s.2.lookup t = some (.infer name) := by simp [Store.lookup, hc, Cell.node?]
  obtain ⟨g, hinside, hiterations, hrun⟩ := run_step_rebuild replace hf hc (fun _ h => by cases h)
    (fun h => (h t .refl).1 name (Store.form_of_lookup hl)) hm hnew hroom hcount
  have hrebuild : Action.run (rebuild replace t) ({ s.1 with guard := g }, s.2) =
      (x, { s.1 with guard := g }, s.2) := by
    have hstore (s : State) : Action.run (getThe Store : SubstM Store) s = (s.2, s) := rfl
    have hget (s : State) : Action.run (get : SubstM Substitution) s = (s.1, s) := rfl
    unfold rebuild
    rw [Action.run_bind, hstore]
    simp only [hl]
    rw [Action.run_bind, hget]
    simp only [hx]
    rfl
  rw [hrebuild] at hrun
  refine ⟨_, hrun, rfl, rfl, hinside.leave (.refl g), ?_, fun hu => ?_⟩
  · show (g.leave t).iterations ≤ _
    rw [Guard.leave_iterations]
    exact hiterations
  · show (s.1.memo.insert t x).get? _ = _
    rw [Dict.get?_insert, if_neg hu]

theorem run_replaceSlot {replace : TypeId → SubstM TypeId} {s s₁ : State} {slot : Slot} {x : TypeId}
    (h : Action.run (replace slot.type) s = (x, s₁)) :
    Action.run (replaceSlot replace slot) s = (s₁.2.splice slot x, s₁) := by
  have hstore (s : State) : Action.run (getThe Store : SubstM Store) s = (s.2, s) := rfl
  unfold replaceSlot Store.splice Store.form?
  rw [Action.run_bind, h, Action.run_bind, hstore]
  cases slot.rest with
  | false => rfl
  | true =>
    cases s₁.2.lookup x with
    | none => rfl
    | some node => cases node <;> rfl

theorem run_replaceSignature {replace : TypeId → SubstM TypeId} {s s₁ s₂ : State} {slot : Slot}
    {r x y : TypeId} (hx : Action.run (replace slot.type) s = (x, s₁))
    (hy : Action.run (replace r) s₁ = (y, s₂)) :
    Action.run (replaceSignature replace { params := [slot], result := r }) s =
      ({ params := s₁.2.splice slot x, result := y }, s₂) := by
  have hslots : Action.run (replaceSlots replace [slot]) s = (s₁.2.splice slot x, s₁) := by
    unfold replaceSlots
    rw [Action.run_bind, List.mapM_cons, Action.run_bind, run_replaceSlot hx]
    simp only [List.mapM_nil, pure_bind, Action.run_pure, List.flatten_cons, List.flatten_nil,
      List.append_nil]
  unfold replaceSignature replaceReceiver
  rw [Action.run_bind, Action.run_pure, Action.run_bind, hslots, Action.run_bind, hy]
  rfl

theorem cells_infer {st : Store} {t : TypeId} {name : String} (h : Made (.infer name) t st) :
    st.cells[t]? = some (.interned (.infer name)) := by
  obtain ⟨node, hl, hform⟩ := Store.lookup_of_form h.form
  cases node <;> cases hform
  exact Store.interned_iff.mpr ⟨hl, h.interned⟩

section Template

variable {a r x y : TypeId} {A R : String} (hne : a ≠ r)

include hne

/-- One variable is replaced after the other. -/
theorem run_replaceBoth {s : State} (hf : s.2.Founded) (ha : Made (.infer A) a s.2)
    (hr : Made (.infer R) r s.2) (hx : s.1.infers.get? A = some x) (hy : s.1.infers.get? R = some y)
    (hm : ∀ t ∈ [a, r], s.1.memo.get? t = none ∧ t ∉ s.1.guard.visiting)
    (hroom : s.1.guard.depth < s.1.guard.limits.depth)
    (hcount : s.1.guard.iterations + 1 < s.1.guard.limits.iterations)
    (stop : TypeId → SubstM TypeId) (room : Nat) :
    ∃ s', Action.run (replaceSignature (descend step stop (room + 1))
        { params := [Evaluator.restParam a], result := r }) s =
      ({ params := s.2.splice (Evaluator.restParam a) x, result := y }, s') ∧ s'.2 = s.2 := by
  obtain ⟨hma, hva⟩ := hm a (by simp)
  obtain ⟨hmr, hvr⟩ := hm r (by simp)
  obtain ⟨s₁, ha₁, h₁⟩ :=
    run_step_infer (descend step stop room) hf (cells_infer ha) hx hma hva hroom (by omega)
  have hcounted := h₁.counted
  have hcell := cells_infer hr
  rw [← h₁.store] at hf hcell
  obtain ⟨s₂, hr₂, h₂⟩ := run_step_infer (descend step stop room) hf hcell (h₁.infers ▸ hy)
    ((h₁.memo (Ne.symm hne)).trans hmr) (h₁.guard.visiting ▸ hvr)
    (by rw [h₁.guard.depth, h₁.guard.limits]; exact hroom) (by rw [h₁.guard.limits]; omega)
  have hboth : Action.run (replaceSignature (descend step stop (room + 1))
      { params := [Evaluator.restParam a], result := r }) s = _ := run_replaceSignature ha₁ hr₂
  rw [h₁.store] at hboth
  exact ⟨s₂, hboth, h₂.store.trans h₁.store⟩

/-- What stands for the two variables comes in their place, the parameters one by one if they are a
tuple. -/
theorem applyOnce_restFunction {s : Substitution} (hm : s.memo = .empty)
    (hg : s.guard = .start .substitution) {st : Store} (hf : st.Founded) {t : TypeId}
    (ht : Made (.function { params := [Evaluator.restParam a], result := r }) t st)
    (ha : Made (.infer A) a st) (hr : Made (.infer R) r st) (hx : s.infers.get? A = some x)
    (hy : s.infers.get? R = some y) :
    (s.applyOnce t).run st =
      (Store.mkFunction { params := st.splice (Evaluator.restParam a) x, result := y }).run st := by
  obtain ⟨id, hl, hid⟩ := Store.lookup_function ht.form
  have hempty (u : TypeId) : s.memo.get? u = none := by rw [hm]; rfl
  have hbound : ¬ st.Unbound s.params t := by
    intro h
    refine (h a (.single ?_)).1 A ha.form
    rw [Store.mentions_of_form ht.form]
    exact List.mem_cons_self
  obtain ⟨g, hinside, hcounted, hrun⟩ := run_step_rebuild (descend step (fun _ => return .never) 99)
    (s := (s, st)) hf (Store.interned_iff.mpr ⟨hl, ht.interned⟩) (fun _ h => by cases h)
    hbound (hempty t)
    (by simp [hg, Guard.start]) (by simp [hg, Guard.start, Limits.substitution])
    (by simp [hg, Guard.start, Limits.substitution])
  have hlimits : g.limits = .substitution := hinside.limits.trans (by rw [hg]; rfl)
  have hdepth : g.depth = 1 := hinside.depth.trans (by rw [hg]; rfl)
  have hvisiting : g.visiting = [t] := hinside.visiting.trans (by rw [hg]; rfl)
  have hcounted : g.iterations ≤ 1 := Nat.le_trans hcounted (by rw [hg]; exact Nat.le_refl 1)
  have hother {u : TypeId} {name : String} (hu : Made (.infer name) u st) : u ≠ t := by
    rintro rfl
    cases hu.form.symm.trans ht.form
  obtain ⟨s', hboth, hst⟩ := run_replaceBoth hne (s := ({ s with guard := g }, st)) hf ha hr hx hy
    (by simpa [hempty, hvisiting] using ⟨hother ha, hother hr⟩)
    (by simp [hlimits, hdepth, Limits.substitution])
    (by simp only [hlimits, Limits.substitution]; omega) (fun _ => return .never) 98
  have hrebuild : Action.run (rebuild (descend step (fun _ => return .never) 99) t)
      ({ s with guard := g }, st) =
      let made :=
        (Store.mkFunction { params := st.splice (Evaluator.restParam a) x, result := y }).run st
      (made.1, s'.1, made.2) := by
    have hstore (s : State) : Action.run (getThe Store : SubstM Store) s = (s.2, s) := rfl
    have hmake (signature : Signature) (s : State) :
        Action.run (liftM (Store.mkFunction signature) : SubstM TypeId) s =
          (((Store.mkFunction signature).run s.2).1, s.1,
            ((Store.mkFunction signature).run s.2).2) := rfl
    unfold rebuild
    rw [Action.run_bind, hstore]
    simp only [hl, hid]
    rw [Action.run_bind, hboth, hmake, hst]
  have happly : (s.applyOnce t).run st =
      let r := Action.run (descend step (fun _ => return .never) s.guard.limits.depth t) (s, st)
      (r.1, r.2.2) := rfl
  rw [show s.guard.limits.depth = 99 + 1 by rw [hg]; rfl, descend, hrun, hrebuild] at happly
  exact happly

end Template

end Substitution

theorem Discipline.Good.valid_intrinsic {st : Store} (hg : Good .typed st) (kind : Intrinsic) :
    kind.id < st.size :=
  (hg.wellFormed.founded.solid kind).lt_size

namespace Evaluator

open Matcher (filled)

section Patterns

variable {st : Store} (hg : Discipline.Good .typed st) {args result : TypeId}

include hg

theorem leads_restFunction (ha : args < st.size) (hr : result < st.size) :
    Leads (Discipline.Evolves .typed) (restFunction args result) st
      (Made (.function { params := [restParam args], result })) := by
  refine (Discipline.runs_mkFunction hg fun c hc => ?_).leads.mono fun _ _ h₁ h =>
    h.typed (h₁.good hg)
  rcases mentions_rest hc with rfl | rfl
  · exact fit_typed ha
  · exact fit_typed hr

theorem leads_restConstructor (ha : args < st.size) (hr : result < st.size) :
    Leads (Discipline.Evolves .typed) (restConstructor args result) st
      (Made (.constructor { params := [restParam args], result })) := by
  refine (Discipline.runs_mkConstructor hg fun c hc => ?_).leads.mono fun _ _ h₁ h =>
    h.typed (h₁.good hg)
  rcases mentions_rest hc with rfl | rfl
  · exact fit_typed ha
  · exact fit_typed hr

end Patterns

structure Template (st : Store) (a r t : TypeId) : Prop where
  args : Made (.infer "A") a st
  result : Made (.infer "R") r st
  function : Made (.function { params := [restParam a], result := r }) t st

section Template

variable {st st' : Store} (hg : Discipline.Good .typed st) {a r t : TypeId}

include hg

theorem Template.later (h : Template st a r t) (he : st.Extends st') : Template st' a r t :=
  ⟨h.args.later hg.wellFormed he, h.result.later hg.wellFormed he,
    h.function.later hg.wellFormed he⟩

/-- The template is built with variables for its parameters and its result. -/
theorem leads_openSignature :
    Leads (Discipline.Evolves .typed) openSignature st fun t st' => ∃ a r, Template st' a r t := by
  apply (Discipline.runs_mkInfer hg "A").leads.bind
  intro a st₁ h₁ ha
  have hg₁ := h₁.good hg
  have ha := ha.typed hg₁
  apply (Discipline.runs_mkInfer hg₁ "R").leads.bind
  intro r st₂ h₂ hr
  have hg₂ := h₂.good hg₁
  have hr := hr.typed hg₂
  refine (leads_restFunction hg₂ (Nat.lt_of_lt_of_le ha.lt_size h₂.grown.size) hr.lt_size).mono
    fun t st₃ h₃ ht => ?_
  exact ⟨a, r, ha.later hg₁.wellFormed (h₂.grown.trans h₃.grown),
    hr.later hg₂.wellFormed h₃.grown, ht⟩

omit hg in
theorem Template.open (h : Template st a r t) :
    Matcher.Open st { params := [restParam a], result := r } none (some "A") (some "R") :=
  ⟨.inl rfl, .inl rfl, .inr (by simp), rfl, ⟨a, rfl, .infer h.args.form⟩, .infer h.result.form⟩

/-- What a signature was taken apart into is put together again. -/
theorem Template.rejoins (h : Template st a r t) {subject : Signature}
    (hvalid : ∀ u ∈ (Form.function subject).mentions, u < st.size) {rest : TypeId}
    (hremainder : st.Remainder subject.params rest) {s : Substitution} (hm : s.memo = .empty)
    (hguard : s.guard = .start .substitution)
    (hinfers : s.infers = filled subject none (some "A") (some "R") rest) {answer : TypeId}
    (hrun : (s.applyOnce t).run st = (answer, st')) :
    Discipline.Evolves .typed st st' ∧ st'.Rejoined subject answer := by
  have hne : a ≠ r := by
    rintro rfl
    have hnames : some (Form.infer "A") = some (.infer "R") := h.args.form.symm.trans h.result.form
    simp at hnames
  rw [Substitution.applyOnce_restFunction hne hm hguard hg.wellFormed.founded h.function
    h.args h.result
    (x := rest) (y := subject.result) (by simp [hinfers, filled, Matcher.get?_fill])
    (by simp [hinfers, filled, Matcher.get?_fill])] at hrun
  exact Store.rejoined_of_run hg hvalid hremainder hrun

end Template

end Evaluator

end TypeCalculus
