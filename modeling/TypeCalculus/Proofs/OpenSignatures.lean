import TypeCalculus.Proofs.Crossing

namespace TypeCalculus

open Store (Later)

theorem Store.lookup_constructor {st : Store} {c : TypeId} {signature : Signature}
    (h : st.form? c = some (.constructor signature)) :
    ∃ id, st.lookup c = some (.constructor id) ∧ st.signature id = signature := by
  obtain ⟨node, hl, hform⟩ := lookup_of_form h
  cases node <;> cases hform
  exact ⟨_, hl, rfl⟩

/-- Several parameters together are a tuple, unless the only one is a rest parameter. -/
theorem Store.Remainder.tuple {st : Store} {slots : List Slot} {t : TypeId}
    (h : st.Remainder slots t) (hn : ∀ slot, slots = [slot] → slot.rest = false) :
    (Store.mkTuple slots).run st = (t, st) := by
  unfold Remainder Matcher.remainder at h
  split at h
  · rename_i only
    rw [if_neg (by simp [hn only rfl])] at h
    exact h
  · exact h

theorem Store.Remainder.rest {st : Store} {slot : Slot} {t : TypeId} (h : st.Remainder [slot] t)
    (hr : slot.rest = true) : t = slot.type := by
  unfold Remainder Matcher.remainder at h
  simp only [hr] at h
  exact (congrArg Prod.fst h).symm

/-- The type of several slots together is there, unless it is the type of a lone rest slot. -/
theorem Store.Remainder.defined {st : Store} {slots : List Slot} {t : TypeId}
    (h : st.Remainder slots t) (hw : st.WellFormed) (hvalid : ∀ slot ∈ slots, slot.type < st.size)
    (hrest : ∀ slot, slots = [slot] → slot.rest = true → (st.form? slot.type).isSome) :
    (st.form? t).isSome := by
  by_cases hlone : ∃ slot, slots = [slot] ∧ slot.rest = true
  · obtain ⟨slot, rfl, hr⟩ := hlone
    rw [h.rest hr]
    exact hrest slot rfl hr
  · have hrun : Action.run (Store.mkTuple slots) st = (t, st) := h.tuple fun slot hs => by
      rw [← Bool.not_eq_true]
      exact fun hr => hlone ⟨slot, hs, hr⟩
    have hmade := (leads_mkTuple hw fun c hc => by
      obtain ⟨slot, hm, rfl⟩ := List.mem_map.mp hc
      exact hvalid slot hm).2
    rw [hrun] at hmade
    simp [hmade.form]

/-- A function or constructor is the only member of itself. -/
theorem Store.unionMembers_of_signature {st : Store} (ht : st.Tidy) (hfounded : st.Founded)
    {f : TypeId} {subject : Signature}
    (hf : st.form? f = some (.function subject) ∨ st.form? f = some (.constructor subject)) :
    st.unionMembers f = [f] := by
  rcases unionMembers_cases ht f with ⟨rfl, _⟩ | ⟨_, hone, _⟩ | ⟨id, hl, _⟩
  · have hnever : st.form? .never = some (.intrinsic .never) := hfounded.form .never
    rcases hf with hf | hf <;> cases hf.symm.trans hnever
  · exact hone
  · rcases hf with hf | hf <;> cases hf.symm.trans (form_of_lookup hl)

namespace Matcher

/-- A place in a pattern that takes whatever stands there: a variable, which is bound to it, or
`any`. -/
inductive Hole (st : Store) : TypeId → Option String → Prop
  | any : Hole st .any none
  | infer {t : TypeId} {name : String} (h : st.form? t = some (.infer name)) : Hole st t (some name)

def fill (bindings : Bindings) : Option String → TypeId → Bindings
  | none, _ => bindings
  | some name, t => bindings.insert name t

theorem get?_fill (bindings : Bindings) (hole : Option String) (t : TypeId) (name : String) :
    (fill bindings hole t).get? name = if hole = some name then some t else bindings.get? name := by
  cases hole with
  | none => simp [fill]
  | some other => simp only [fill, Dict.get?_insert, Option.some.injEq, eq_comm]

theorem Hole.later {st st' : Store} {t : TypeId} {name : Option String} (h : Hole st t name)
    (hw : st.WellFormed) (he : st.Extends st') : Hole st' t name := by
  cases h with
  | any => exact .any
  | infer h => exact .infer ((hw.form_extends he (Store.lt_size_of_form h)).trans h)

section Holes

abbrev Ordered (s : State) : Prop := Held (fun st t => t < st.size) s

abbrev Goes (s s' : State) : Prop := Walk (Keeps fun st t => t < st.size) s s'

/-- Scanning a pattern leaves everything else alone. -/
theorem containsInfer_bindings (t : TypeId) (s : State) :
    (Action.run (containsInfer t) s).2.1.bindings = s.1.bindings ∧
    (Action.run (containsInfer t) s).2.2 = s.2 := by
  have hget : Action.run (get : MatchM Matcher) s = (s.1, s) := rfl
  unfold containsInfer
  rw [Action.run_bind, hget]
  cases s.1.scanned.get? t with
  | some answer => exact ⟨rfl, rfl⟩
  | none => exact ⟨rfl, rfl⟩

variable {s : State} (hs : Ordered s) {x hole : TypeId} {name : Option String} (hx : x < s.2.size)
  (hfree : s.2.InferFree x) (hh : Hole s.2 hole name)
  (hnew : ∀ n, name = some n → s.1.bindings.get? n = none) (stop : Goal → MatchM Bool) (room : Nat)
  (v : Variance)

include hs hx hfree hh hnew

omit hh hnew in
/-- An `any` fits what is there, and shows nothing to anyone if no variable is there. -/
theorem leads_ask_any (hd : (s.2.form? x).isSome) :
    Leads Goes (descend step stop room ⟨.any, x, v⟩) s fun b s' =>
      b = true ∧ s'.1.bindings = s.1.bindings ∧ s'.2 = s.2 := by
  obtain ⟨below, hbelow⟩ := descend_eq_step stop room
  rw [hbelow]
  unfold step
  split
  · exact Leads.pure ⟨rfl, rfl, rfl⟩
  · apply leads_getStore
    split
    · rename_i hl
      rw [Store.form?_eq_none.mpr hl] at hd
      cases hd
    · rename_i name hl
      exact absurd (Store.form_of_lookup hl) (hfree x .refl name)
    · split
      · exact Leads.pure ⟨rfl, rfl, rfl⟩
      · rw [if_pos rfl]
        have hscan : Leads Goes (containsInfer x) s fun answer s' =>
            answer = false ∧ s'.1.bindings = s.1.bindings ∧ s'.2 = s.2 :=
          ⟨(leads_scan hs hx).1, (leads_scan hs hx).2.trans
            ((Store.containsInfer_eq_false hs.sound.founded).mpr hfree), containsInfer_bindings x s⟩
        have hbind : Leads Goes (bindAny ⟨.any, x, v⟩) s fun _ s' =>
            s'.1.bindings = s.1.bindings ∧ s'.2 = s.2 := by
          apply hscan.bind
          rintro answer s₁ _ ⟨rfl, h⟩
          exact Leads.pure h
        exact hbind.bind fun _ _ _ h => Leads.pure ⟨rfl, h⟩

/-- An open place takes what it is shown. -/
theorem leads_ask_hole : Leads Goes (descend step stop room ⟨x, hole, v⟩) s fun b s' =>
    b = true ∧ s'.1.bindings = fill s.1.bindings name x ∧ s'.2 = s.2 := by
  obtain ⟨below, hbelow⟩ := descend_eq_step stop room
  rw [hbelow]
  cases hh with
  | any =>
    have hrun : Action.run (step below ⟨x, .any, v⟩) s = (true, s) := by
      by_cases hany : x = .any
      · exact run_step_same hany
      · have hl := hs.sound.founded.lookup .any
        unfold step
        rw [if_neg hany, Action.run_bind, run_getStore]
        simp only [show s.2.lookup TypeId.any = some (.intrinsic .any) from hl]
        rfl
    rw [Leads, hrun]
    exact ⟨Evolution.refl s, rfl, rfl, rfl⟩
  | infer h =>
    obtain ⟨node, hl, hform⟩ := Store.lookup_of_form h
    cases node <;> cases hform
    have hne : x ≠ hole := by
      rintro rfl
      exact hfree x .refl _ h
    have hrun : Action.run (step below ⟨x, hole, v⟩) s = _ := run_step_infer hne hl
    rw [Bindings.run_bind_unbound x v s.2 (hnew _ rfl)] at hrun
    rw [Leads, hrun]
    refine ⟨⟨.refl _, Evolution.refl _, fun _ _ h => h, fun h => { h with bindings := ?_ }⟩,
      rfl, rfl, rfl⟩
    exact h.bindings.insert hx

/-- So does an open place where values flow in; an `any` only if what it is shown is there. -/
theorem leads_askParameter_hole (hd : name = none → (s.2.form? x).isSome) :
    Leads Goes (askParameter (descend step stop room) x hole v) s fun b s' =>
      b = true ∧ s'.1.bindings = fill s.1.bindings name x ∧ s'.2 = s.2 := by
  have hhole : hole < s.2.size := by
    cases hh with
    | any => exact (hs.sound.founded.solid .any).lt_size
    | infer h => exact Store.lt_size_of_form h
  have hscan : Leads Goes (containsInfer hole) s fun answer s' =>
      answer = s.2.containsInfer hole ∧ s'.1.bindings = s.1.bindings ∧ s'.2 = s.2 := by
    exact ⟨(leads_scan hs hhole).1, (leads_scan hs hhole).2, containsInfer_bindings hole s⟩
  apply hscan.bind
  rintro answer s₁ h₁ ⟨ha, hb, hst⟩
  have hs₁ := h₁.kept.held hs
  rw [← hst] at hx hfree hh hd
  cases hh with
  | any =>
    have hno : answer = false := by
      rw [ha, Store.containsInfer_eq_false hs.sound.founded]
      exact (hs.sound.founded.unbound .empty rfl).inferFree
    subst hno
    refine (leads_ask_any hs₁ hx hfree stop room v.flip (hd rfl)).mono fun b s' _ h => ?_
    exact ⟨h.1, h.2.1.trans hb, h.2.2.trans hst⟩
  | infer h =>
    have hyes : answer = true := by
      rw [ha, ← hst, ← Bool.not_eq_false, Store.containsInfer_eq_false hs₁.sound.founded]
      exact fun hf => hf hole .refl _ h
    subst hyes
    refine (leads_ask_hole hs₁ hx hfree (.infer h) (hb ▸ hnew) stop room v.flip).mono
      fun b s' _ h => ?_
    exact ⟨h.1, hb ▸ h.2.1, h.2.2.trans hst⟩

end Holes

/-- A signature with open places, which takes all parameters together. -/
structure Open (st : Store) (pattern : Signature)
    (receiver params result : Option String) : Prop where
  receiver_params : receiver = none ∨ receiver ≠ params
  receiver_result : receiver = none ∨ receiver ≠ result
  params_result : params = none ∨ params ≠ result
  receiver : match pattern.receiver with
    | none => receiver = none
    | some wanted => ∃ name, receiver = some name ∧ st.form? wanted = some (.infer name)
  params : ∃ wanted, pattern.params = [Evaluator.restParam wanted] ∧ Hole st wanted params
  result : Hole st pattern.result result

def filled (subject : Signature) (receiver params result : Option String) (rest : TypeId) :
    Bindings :=
  fill (fill (fill .empty receiver (subject.receiver.getD .unknown)) params rest) result
    subject.result

section Signatures

variable {s : State} (hs : Ordered s) {subject pattern : Signature}
  (hvalid : ∀ t ∈ (Form.function subject).mentions, t < s.2.size ∧ s.2.InferFree t)
  {receiver params result : Option String} (hopen : Open s.2 pattern receiver params result)
  (stop : Goal → MatchM Bool) (room : Nat) (v : Variance)

include hs hvalid hopen

omit hs hvalid hopen in
theorem leads_built {α : Type} {x : StoreM α} {Q : α → Store → Prop} (h : Leads Later x s.2 Q) :
    Leads Goes (liftM x : MatchM α) s fun a s' => s'.1 = s.1 ∧ Q a s'.2 :=
  leads_lift ⟨.refl _, Keeps.store Store.kind_valid h.1⟩ ⟨rfl, h.2⟩

/-- The receiver goes to the first open place, and is `unknown` if there is none. -/
theorem leads_matchReceiver (hempty : s.1.bindings = .empty) :
    Leads Goes (matchReceiver (descend step stop room) subject pattern v) s fun b s' =>
      b = true ∧ s'.1.bindings = fill .empty receiver (subject.receiver.getD .unknown) ∧
      s'.2 = s.2 := by
  have hhole := hopen.receiver
  unfold matchReceiver
  cases hp : pattern.receiver with
  | none =>
    rw [hp] at hhole
    have hhole : receiver = none := hhole
    subst hhole
    exact Leads.pure ⟨rfl, hempty, rfl⟩
  | some wanted =>
    rw [hp] at hhole
    obtain ⟨name, rfl, hinfer⟩ := hhole
    have hfacts : subject.receiver.getD .unknown < s.2.size ∧
        s.2.InferFree (subject.receiver.getD .unknown) := by
      cases hr : subject.receiver with
      | none =>
        exact ⟨(hs.sound.founded.solid .unknown).lt_size,
          (hs.sound.founded.unbound .empty rfl).inferFree⟩
      | some t => exact hvalid t (by simp [Form.mentions, hr])
    rw [← hempty]
    exact leads_askParameter_hole hs hfacts.1 hfacts.2 (.infer hinfer)
      (fun _ _ => by rw [hempty]; rfl)
      stop room v fun h => by cases h

/-- All parameters are taken together. -/
theorem leads_matchParams
    (hrest : params = none → ∀ slot, subject.params = [slot] → slot.rest = true →
      (s.2.form? slot.type).isSome)
    {b : Bindings} (hb : s.1.bindings = b) (hnew : ∀ n, params = some n → b.get? n = none) :
    Leads Goes (matchParams (descend step stop room) subject.params pattern.params v) s
      fun answer s' => answer = true ∧ ∃ rest, s'.2.Remainder subject.params rest ∧
        s'.1.bindings = fill b params rest := by
  obtain ⟨wanted, hp, hhole⟩ := hopen.params
  have hslots (slot : Slot) (hm : slot ∈ subject.params) :
      slot.type < s.2.size ∧ s.2.InferFree slot.type :=
    hvalid _ (Form.slot_mentioned (f := .function subject) hm)
  have heq : matchParams (descend step stop room) subject.params pattern.params v =
      liftM (remainder subject.params) >>= fun rest =>
        askParameter (descend step stop room) rest wanted v := by
    rw [hp]
    unfold matchParams
    simp [Evaluator.restParam]
  rw [heq]
  apply (leads_built ((Store.kind_infersIn _).leads_remainder hs.sound hslots)).bind
  rintro rest s₁ h₁ ⟨hsame, ⟨hlt, hfree⟩, hremainder⟩
  have hs₁ := h₁.kept.held hs
  have hgrown := h₁.kept.later.grown
  have hslots₁ : ∀ slot ∈ subject.params, slot.type < s₁.2.size := fun slot hm =>
    Nat.lt_of_lt_of_le (hslots slot hm).1 hgrown.size
  have hdefined : params = none → (s₁.2.form? rest).isSome := by
    intro hnone
    apply hremainder.defined hs₁.sound hslots₁
    intro slot hone hr
    rw [hs.sound.form_extends hgrown (hslots slot (by simp [hone])).1]
    exact hrest hnone slot hone hr
  have hb₁ : s₁.1.bindings = b := by rw [hsame, hb]
  refine (leads_askParameter_hole hs₁ hlt hfree (hhole.later hs.sound hgrown)
    (hb₁ ▸ hnew) stop room v
    hdefined).mono fun answer s' _ h => ?_
  obtain ⟨hyes, hbound, hst⟩ := h
  exact ⟨hyes, rest, hst ▸ hremainder, hb₁ ▸ hbound⟩

/-- A signature is taken apart into its receiver, its parameters and its result. -/
theorem leads_matchSignature (hempty : s.1.bindings = .empty)
    (hrest : params = none → ∀ slot, subject.params = [slot] → slot.rest = true →
      (s.2.form? slot.type).isSome) :
    Leads Goes (matchSignature (descend step stop room) subject pattern v) s fun answer s' =>
      answer = true ∧ ∃ rest, s'.2.Remainder subject.params rest ∧
        s'.1.bindings = filled subject receiver params result rest := by
  have hfree {hole : Option String} {bindings : Bindings} {t : TypeId} {name : String}
      (hb : bindings.get? name = none) {other : Option String} (hd : hole = none ∨ hole ≠ other)
      (ho : other = some name) : (fill bindings hole t).get? name = none := by
    rw [get?_fill, if_neg, hb]
    rintro rfl
    rcases hd with hd | hd
    · cases hd
    · exact hd ho.symm
  apply (leads_matchReceiver hs hvalid hopen stop room v hempty).bind
  rintro _ s₁ h₁ ⟨rfl, hb₁, hst₁⟩
  have hs₁ := h₁.kept.held hs
  apply (leads_matchParams hs₁ (hst₁ ▸ hvalid) (hst₁ ▸ hopen) stop room v (hst₁ ▸ hrest) hb₁
    fun n hn => hfree rfl hopen.receiver_params hn).bind
  rintro _ s₂ h₂ ⟨rfl, rest, hremainder, hb₂⟩
  have hs₂ := h₂.kept.held hs₁
  have hgrown := h₁.kept.later.grown.trans h₂.kept.later.grown
  obtain ⟨hlt, hinfer⟩ := hvalid subject.result (by simp [Form.mentions])
  have hlast := leads_ask_hole hs₂ (Nat.lt_of_lt_of_le hlt hgrown.size)
    ((hs.sound.inferFree_extends hgrown hlt).mpr hinfer) (hopen.result.later hs.sound hgrown)
    (fun n hn => by
      rw [hb₂]; exact hfree (hfree rfl hopen.receiver_result hn) hopen.params_result hn) stop room v
  refine hlast.mono fun answer s' _ h => ?_
  obtain ⟨hyes, hbound, hst⟩ := h
  rw [hb₂] at hbound
  exact ⟨hyes, rest, hst ▸ hremainder, hbound⟩

end Signatures

inductive Faces (st : Store) (f p : TypeId) (subject pattern : Signature) : Prop
  | functions (hf : st.form? f = some (.function subject))
      (hp : st.form? p = some (.function pattern))
  | constructors (hf : st.form? f = some (.constructor subject))
      (hp : st.form? p = some (.constructor pattern))

section Faces

variable {st : Store} {f p : TypeId} {subject pattern : Signature}
  (h : Faces st f p subject pattern)

include h

theorem Faces.mentions : st.mentions f = (Form.function subject).mentions := by
  cases h with
  | functions hf => exact Store.mentions_of_form hf
  | constructors hf => exact (Store.mentions_of_form hf).trans rfl

theorem Faces.ne_intrinsic (hf : st.Founded) (kind : Intrinsic) : f ≠ kind.id ∧ p ≠ kind.id := by
  constructor
  · rintro rfl
    cases h with
    | functions h => cases h.symm.trans (hf.form kind)
    | constructors h => cases h.symm.trans (hf.form kind)
  · rintro rfl
    cases h with
    | functions _ h => cases h.symm.trans (hf.form kind)
    | constructors _ h => cases h.symm.trans (hf.form kind)

/-- The two signatures are matched. -/
theorem Faces.structure (m : Matcher) (ask : Goal → MatchM Bool) (v : Variance) :
    ∃ node, st.lookup p = some node ∧ (∀ name, node ≠ .infer name) ∧
      Action.run (matchStructure ask ⟨f, p, v⟩ node) (m, st) =
        Action.run (matchSignature ask subject pattern v) (m, st) := by
  cases h with
  | functions hf hp =>
    obtain ⟨i, hi, hsubject⟩ := Store.lookup_function hf
    obtain ⟨j, hj, hpattern⟩ := Store.lookup_function hp
    refine ⟨_, hj, (fun _ h => by cases h), ?_⟩
    unfold matchStructure
    rw [Action.run_bind, run_getStore]
    simp only [hi, matchNodes, hsubject, hpattern]
  | constructors hf hp =>
    obtain ⟨i, hi, hsubject⟩ := Store.lookup_constructor hf
    obtain ⟨j, hj, hpattern⟩ := Store.lookup_constructor hp
    refine ⟨_, hj, (fun _ h => by cases h), ?_⟩
    unfold matchStructure
    rw [Action.run_bind, run_getStore]
    simp only [hi, matchNodes, hsubject, hpattern]

end Faces

section Patterns

variable {st : Store} (hw : st.WellFormed) {f p : TypeId} {limits : Limits} (hl : limits.Positive)

theorem ordered_start (hw : st.WellFormed) (limits : Limits) : Ordered (start limits, st) :=
  ⟨hw, (fun _ _ h => by cases h), (fun h => by cases h), fun _ _ h => by cases h⟩

include hl

/-- A question that is not settled at once is settled in a visit. -/
theorem run_matchPattern_visit {node : Node} (hne : f ≠ p) (hp : st.lookup p = some node)
    (hinfer : ∀ name, node ≠ .infer name) (htop : p.isTop = false) (hnever : f ≠ .never)
    (hany : f ≠ .any) {F : State → State → Prop} {Q : Bool → Bindings → Store → Prop}
    (h : ∀ (g : Guard Goal) (stop : Goal → MatchM Bool) (room : Nat),
      g.visiting = [⟨f, p, .covariant⟩] →
      Leads F (matchStructure (descend step stop room) ⟨f, p, .covariant⟩ node)
        ({ start limits with guard := g }, st) fun b s' => Q b s'.1.bindings s'.2) :
    ∃ b bindings st', (matchPattern f p limits).run st = (if b then some bindings else none, st') ∧
      Q b bindings st' := by
  obtain ⟨room, hroom⟩ : ∃ room, limits.depth = room + 1 :=
    ⟨limits.depth - 1, by have := hl.1; omega⟩
  obtain ⟨g, hinside, _, hbody⟩ := run_visit_entered (s := (start limits, st))
    (List.not_mem_nil (a := (⟨f, p, .covariant⟩ : Goal))) hl.1 hl.2
  have hask : Action.run (step (descend step (fun _ => return false) room) ⟨f, p, .covariant⟩)
      (start limits, st) = _ := run_step_visit hne hp hinfer htop hnever hany
  obtain ⟨_, hq⟩ := h g (fun _ => return false) room hinside.visiting
  rw [hbody _ _ _ rfl] at hask
  have hmatch : (matchPattern f p limits).run st =
      let r := Action.run (descend step (fun _ => return false) limits.depth ⟨f, p, .covariant⟩)
        (start limits, st)
      (if r.1 then some r.2.1.bindings else none, r.2.2) := rfl
  rw [hroom, descend, hask] at hmatch
  exact ⟨_, _, _, hmatch, hq⟩

include hw

/-- A signature fits one with open places, which take what they are shown. -/
theorem run_matchPattern_open {subject pattern : Signature} (hfaces : Faces st f p subject pattern)
    (hne : f ≠ p) (hfree : st.InferFree f) {receiver params result : Option String}
    (hopen : Open st pattern receiver params result)
    (hrest : params = none → ∀ slot, subject.params = [slot] → slot.rest = true →
      (st.form? slot.type).isSome) :
    ∃ rest st', (matchPattern f p limits).run st =
        (some (filled subject receiver params result rest), st') ∧
        st'.Remainder subject.params rest := by
  have hplain := hfaces.ne_intrinsic hw.founded
  have htop : p.isTop = false := by
    simp only [TypeId.isTop, Bool.or_eq_false_iff, decide_eq_false_iff_not]
    exact ⟨(hplain .any).2, (hplain .unknown).2⟩
  obtain ⟨node, hnode, hinfer, _⟩ :=
    hfaces.structure (start limits) (fun _ => return false) .covariant
  obtain ⟨_, _, st', hrun, rfl, rest, hremainder, rfl⟩ :=
    run_matchPattern_visit hl (Q := fun b bindings st' =>
    b = true ∧ ∃ rest, st'.Remainder subject.params rest ∧
    bindings = filled subject receiver params result rest)
    hne hnode hinfer htop (hplain .never).1 (hplain .any).1 fun g stop room _ => by
      obtain ⟨other, hother, _, hstructure⟩ :=
        hfaces.structure { start limits with guard := g } (descend step stop room) .covariant
      cases hnode.symm.trans hother
      rw [Leads, hstructure]
      have hs : Ordered ({ start limits with guard := g }, st) := { ordered_start hw limits with }
      refine leads_matchSignature hs (fun t ht => ?_) hopen stop room .covariant rfl hrest
      rw [← hfaces.mentions] at ht
      exact ⟨(hw.sound f).inside ht, hfree.child ht⟩
  exact ⟨rest, st', hrun, hremainder⟩

/-- A function is no constructor. -/
theorem run_matchPattern_constructor {subject pattern : Signature}
    (hf : st.form? f = some (.function subject)) (hp : st.form? p = some (.constructor pattern)) :
    (matchPattern f p limits).run st = (none, st) := by
  obtain ⟨i, hi, _⟩ := Store.lookup_function hf
  obtain ⟨j, hj, _⟩ := Store.lookup_constructor hp
  have hne : f ≠ p := by
    rintro rfl
    cases hf.symm.trans hp
  have hplain (kind : Intrinsic) : p ≠ kind.id := by
    rintro rfl
    cases hp.symm.trans (hw.founded.form kind)
  have htop : p.isTop = false := by
    simp only [TypeId.isTop, Bool.or_eq_false_iff, decide_eq_false_iff_not]
    exact ⟨hplain .any, hplain .unknown⟩
  obtain ⟨_, _, _, hrun, rfl, rfl⟩ := run_matchPattern_visit hl (F := Goes)
    (Q := fun b _ st' => b = false ∧ st' = st) hne hj (fun _ h => by cases h) htop
    (hw.founded.ne_of_function hf .never) (hw.founded.ne_of_function hf .any)
    fun g stop room _ => by
      apply leads_getStore
      simp only [hi, matchNodes]
      exact Leads.pure ⟨rfl, rfl⟩
  exact hrun

end Patterns

section Open

variable {st st' : Store} {f p : TypeId} {subject pattern : Signature}
  {receiver params result : Option String}

theorem Open.later (h : Open st pattern receiver params result) (hw : st.WellFormed)
    (he : st.Extends st') :
    Open st' pattern receiver params result where
  receiver_params := h.receiver_params
  receiver_result := h.receiver_result
  params_result := h.params_result
  receiver := by
    have hr := h.receiver
    cases hp : pattern.receiver with
    | none =>
      rw [hp] at hr
      exact hr
    | some wanted =>
      rw [hp] at hr
      obtain ⟨name, hname, hinfer⟩ := hr
      exact ⟨name, hname, (hw.form_extends he (Store.lt_size_of_form hinfer)).trans hinfer⟩
  params := by
    obtain ⟨wanted, hp, hhole⟩ := h.params
    exact ⟨wanted, hp, hhole.later hw he⟩
  result := h.result.later hw he

structure Presented (st : Store) (f p : TypeId) (subject pattern : Signature)
    (receiver params result : Option String) : Prop where
  faces : Faces st f p subject pattern
  differ : f ≠ p
  free : st.InferFree f
  opened : Open st pattern receiver params result

theorem Faces.lt_size (h : Faces st f p subject pattern) : f < st.size ∧ p < st.size := by
  cases h with
  | functions hf hp => exact ⟨Store.lt_size_of_form hf, Store.lt_size_of_form hp⟩
  | constructors hf hp => exact ⟨Store.lt_size_of_form hf, Store.lt_size_of_form hp⟩

theorem Faces.unionMembers (h : Faces st f p subject pattern) (ht : st.Tidy) (hf : st.Founded) :
    st.unionMembers f = [f] := by
  cases h with
  | functions h => exact Store.unionMembers_of_signature ht hf (.inl h)
  | constructors h => exact Store.unionMembers_of_signature ht hf (.inr h)

/-- Where a variable is open, the pattern is not the subject. -/
theorem Open.differ (hopen : Open st pattern receiver params result)
    (h : Faces st f p subject pattern) (hfree : st.InferFree f)
    (hsome : params ≠ none ∨ result ≠ none ∨ receiver ≠ none) : f ≠ p := by
  rintro rfl
  have hsame : subject = pattern := by
    cases h with
    | functions hf hp => cases hf.symm.trans hp; rfl
    | constructors hf hp => cases hf.symm.trans hp; rfl
  subst hsame
  have hno {t : TypeId} (ht : t ∈ (Form.function subject).mentions) (name : String) :
      st.form? t ≠ some (.infer name) :=
    (hfree.child (h.mentions ▸ ht)) t .refl name
  rcases hsome with hsome | hsome | hsome
  · obtain ⟨wanted, hp, hhole⟩ := hopen.params
    cases hhole with
    | any => exact hsome rfl
    | infer hinfer => exact hno (by simp [Form.mentions, hp, Evaluator.restParam]) _ hinfer
  · have hhole := hopen.result
    generalize hr : subject.result = wanted at hhole
    cases hhole with
    | any => exact hsome rfl
    | infer hinfer => exact hno (by simp [Form.mentions, hr]) _ hinfer
  · have hhole := hopen.receiver
    cases hp : subject.receiver with
    | none =>
      rw [hp] at hhole
      exact hsome hhole
    | some wanted =>
      rw [hp] at hhole
      obtain ⟨name, _, hinfer⟩ := hhole
      exact hno (by simp [Form.mentions, hp]) _ hinfer

/-- Where something is open, a signature without variables is another type than the pattern. -/
theorem Presented.of_open (hopen : Open st pattern receiver params result)
    (h : Faces st f p subject pattern) (hfree : st.InferFree f)
    (hsome : params ≠ none ∨ result ≠ none ∨ receiver ≠ none) :
    Presented st f p subject pattern receiver params result :=
  ⟨h, hopen.differ h hfree hsome, hfree, hopen⟩

theorem Presented.later (h : Presented st f p subject pattern receiver params result)
    (hw : st.WellFormed) (he : st.Extends st') :
    Presented st' f p subject pattern receiver params result where
  faces := by
    have hform {t : TypeId} {form : Form} (h : st.form? t = some form) : st'.form? t = some form :=
      (hw.form_extends he (Store.lt_size_of_form h)).trans h
    cases h.faces with
    | functions hf hp => exact .functions (hform hf) (hform hp)
    | constructors hf hp => exact .constructors (hform hf) (hform hp)
  differ := h.differ
  free := (hw.inferFree_extends he h.faces.lt_size.1).mpr h.free
  opened := h.opened.later hw he

end Open

abbrev Refuses (x : MatchM Bool) (s : State) : Prop :=
  Decides (Walk Still) x s (fun _ => False) fun _ => False

section Unknown

variable {st : Store} (ht : st.Tidy) (ha : st.Anchored) {v : Variance}

include ht ha

/-- No type is made in a way that would take what is `unknown`: no union and no intersection has
`any` or `unknown` for a member, and all else asks for more. -/
theorem refuses_structure {ask : Goal → MatchM Bool} {t : TypeId} {node : Node} {s : State}
    (hst : s.2 = st) (hl : st.lookup t = some node)
    (hask : ∀ c ∈ st.mentions t, c < t → c.isTop = false → ∀ s', Walk Still s s' →
      Refuses (ask ⟨.unknown, c, v⟩) s') :
      Refuses (matchStructure ask ⟨.unknown, t, v⟩ node) s := by
  have hunknown : st.lookup .unknown = some (.intrinsic .unknown) := ha.founded.lookup .unknown
  have hform := Store.form_of_lookup hl
  have hmembers {members : List TypeId} (hm : st.mentions t = members)
      (hk : node.isContainer = false)
      (hplain : ∀ c ∈ members, c ≠ .any ∧ c ≠ .unknown) :
      ∀ c ∈ members, ∀ s', Walk Still s s' → Refuses (ask ⟨.unknown, c, v⟩) s' := by
    intro c hc s' hs'
    have hr : st.isReserved t = false := by
      rw [← Bool.not_eq_true]
      intro hr
      cases hk.symm.trans (ht.container hr hl)
    apply hask c (hm ▸ hc) (ha.below hr (hm ▸ hc)) _ s' hs'
    simp only [TypeId.isTop, Bool.or_eq_false_iff, decide_eq_false_iff_not]
    exact hplain c hc
  unfold matchStructure
  apply Decides.read
  rw [hst]
  simp only [hunknown]
  cases node with
  | union members =>
    have hregular : st.RegularUnion (st.list members) := ht.regular hform
    refine (Decides.any (fun _ _ _ _ _ _ h => h) (hmembers (Store.mentions_of_form hform) rfl
      fun c hc => ?_)).mono (fun _ _ h => ?_) (fun h => h.elim)
    · exact ⟨(hregular.plain hc).1, (hregular.plain hc).2.1⟩
    · obtain ⟨_, _, h⟩ := h
      exact h
  | intersection members =>
    have hregular : st.RegularIntersection (st.list members) := ht.regular hform
    refine (Decides.all (fun _ _ _ _ _ _ h => h) (fun _ _ _ _ _ _ h => h)
      (hmembers (Store.mentions_of_form hform) rfl fun c hc => ?_)).mono
      (fun _ _ h => ?_) (fun h => h.elim)
    · exact ⟨(hregular.plain hc).1, (hregular.plain hc).2.1⟩
    · have hsome : st.list members ≠ [] :=
        List.ne_nil_of_length_pos (Nat.lt_of_lt_of_le (by decide) hregular.several)
      obtain ⟨c, hc⟩ := List.exists_mem_of_ne_nil _ hsome
      exact h c hc
  | intrinsic kind =>
    have hno : matchIntrinsic st .unknown kind = false := by
      cases kind <;> simp +decide [matchIntrinsic, Store.isObjectLike, hunknown]
    simp only [matchNodes, hno]
    exact .no id
  | _ =>
    simp only [matchNodes]
    exact .no id

/-- The members of a union or an intersection are older than it, so no question comes up again while
it is under way. -/
theorem refuses_step {ask : Goal → MatchM Bool} {t : TypeId} {s : State} (hst : s.2 = st)
    (htop : t.isTop = false) (hfree : st.InferFree t)
    (hvisiting : ∀ goal ∈ s.1.guard.visiting, t < goal.pattern)
    (hask : ∀ c ∈ st.mentions t, c < t → c.isTop = false → ∀ s' : State, s'.2 = st →
      s'.1.guard.visiting = ⟨.unknown, t, v⟩ :: s.1.guard.visiting →
      Refuses (ask ⟨.unknown, c, v⟩) s') :
    Refuses (step ask ⟨.unknown, t, v⟩) s := by
  have hne : TypeId.unknown ≠ t := by
    rintro rfl
    cases htop
  unfold step
  rw [if_neg hne]
  apply Decides.read
  rw [hst]
  split
  · exact .no id
  · rename_i name hl
    exact absurd (Store.form_of_lookup hl) (hfree t .refl name)
  · rename_i node _ hl
    rw [if_neg (by simp [htop, show TypeId.unknown ≠ TypeId.never by decide]),
      if_neg (show TypeId.unknown ≠ TypeId.any by decide)]
    refine leads_visit (fun g hi => ?_) (fun g hv _ => ?_) (fun g ho hk => ?_)
    · obtain ⟨hF, hno, _⟩ := refuses_structure (s := ({ s.1 with guard := g }, s.2)) ht ha hst hl
        fun c hc hlt hctop s' hs' => hask c hc hlt hctop s' (hs'.kept.store.trans hst)
          (hs'.guard.visiting.trans hi.visiting)
      exact ⟨Walk.leave hi hF, hno, fun h => h.elim⟩
    · exact absurd (hvisiting _ hv) (Nat.lt_irrefl t)
    · exact ⟨Walk.setGuard s hk, (fun h => by cases h), fun h => h.elim⟩

/-- Nothing but `any` and `unknown` takes what is `unknown`. -/
theorem refuses_unknown {room : Nat} {t : TypeId} {s : State} (hst : s.2 = st)
    (htop : t.isTop = false) (hfree : st.InferFree t)
    (hvisiting : ∀ goal ∈ s.1.guard.visiting, t < goal.pattern) :
    Refuses (descend step (fun _ => return false) room ⟨.unknown, t, v⟩) s := by
  induction room generalizing t s with
  | zero => exact refuses_step ht ha hst htop hfree hvisiting fun _ _ _ _ _ _ _ => .no id
  | succ room ih =>
    refine refuses_step ht ha hst htop hfree hvisiting fun c hc hlt hctop s' hst' hv => ?_
    refine ih hst' hctop (hfree.child hc) fun goal hm => ?_
    rw [hv] at hm
    rcases List.mem_cons.mp hm with rfl | hm
    · exact hlt
    · exact Nat.lt_trans hlt (hvisiting goal hm)

/-- Against any other type without variables `unknown` is refused, and nothing is built. -/
theorem run_matchPattern_unknown {t : TypeId} (htop : t.isTop = false) (hfree : st.InferFree t)
    (limits : Limits) :
    (matchPattern .unknown t limits).run st = (none, st) := by
  have hrefuses : Refuses (descend step (fun _ => return false) limits.depth
      ⟨.unknown, t, .covariant⟩)
      (start limits, st) := refuses_unknown ht ha rfl htop hfree fun _ h => by cases h
  obtain ⟨hwalk, hno, _⟩ := hrefuses
  have hmatch : (matchPattern .unknown t limits).run st =
      let r :=
        Action.run (descend step (fun _ => return false) limits.depth ⟨.unknown, t, .covariant⟩)
        (start limits, st)
      (if r.1 then some r.2.1.bindings else none, r.2.2) := rfl
  rw [hmatch]
  simp only [Bool.eq_false_iff.mpr hno, hwalk.kept.store]
  rfl

end Unknown

end Matcher

structure Store.ClosedFunction (st : Store) (f : TypeId) (subject : Signature) : Prop where
  form : st.form? f = some (.function subject)
  free : st.InferFree f

theorem Store.ClosedFunction.later {st st' : Store} {f : TypeId} {subject : Signature}
    (h : st.ClosedFunction f subject) (hw : st.WellFormed) (he : st.Extends st') :
    st'.ClosedFunction f subject :=
  ⟨(hw.form_extends he (lt_size_of_form h.form)).trans h.form,
    (hw.inferFree_extends he (lt_size_of_form h.form)).mpr h.free⟩

theorem Store.ClosedFunction.presented {st : Store} {f p : TypeId} {subject pattern : Signature}
    (h : st.ClosedFunction f subject) (hp : st.form? p = some (.function pattern))
    {receiver params result : Option String}
    (hopen : Matcher.Open st pattern receiver params result)
    (hsome : params ≠ none ∨ result ≠ none ∨ receiver ≠ none) :
    Matcher.Presented st f p subject pattern receiver params result :=
  .of_open hopen (.functions h.form hp) h.free hsome

theorem Store.ClosedFunction.constructor {st : Store} {f c : TypeId} {subject : Signature}
    (h : st.ClosedFunction f subject)
    (hc : st.form? c = some (.constructor { params := subject.params, result := subject.result })) :
    st.InferFree c := by
  intro u hu name hinfer
  rcases Relation.ReflTransGen.cases_head hu with rfl | ⟨t, ht, hu⟩
  · cases hc.symm.trans hinfer
  · have hmentions : t ∈ st.mentions f := by
      rw [mentions_of_form h.form]
      rw [mentions_of_form hc] at ht
      simp only [Form.mentions, Option.toList_none, List.nil_append, List.mem_append] at ht ⊢
      rcases ht with ht | ht
      · exact .inl (.inr ht)
      · exact .inr ht
    exact h.free.child hmentions u hu name hinfer

end TypeCalculus
