import TypeCalculus.Proofs.MatchKinds
import TypeCalculus.Proofs.Rebuilding

namespace TypeCalculus

open Store (Later Made)

namespace Store

inductive Trail (st : Store) (root : TypeId) : List TypeId → TypeId → Prop
  | root : Trail st root [] root
  | step {trail : List TypeId} {t c : TypeId} (h : Trail st root trail t) (hn : t ∉ trail)
    (hc : c ∈ st.mentions t) : Trail st root (t :: trail) c

/-- An interned type at which a path from `root` runs into itself. -/
def CycleEntry (st : Store) (root t : TypeId) : Prop :=
  st.isReserved t = false ∧ ∃ trail, st.Trail root trail t ∧ t ∈ trail

theorem Trail.reaches {st : Store} {root t : TypeId} {trail : List TypeId}
    (h : st.Trail root trail t) : st.Reaches root t := by
  induction h with
  | root => exact .refl
  | step _ _ hc ih => exact ih.tail hc

theorem CycleEntry.reaches {st : Store} {root t : TypeId} (h : st.CycleEntry root t) :
    st.Reaches root t := by
  obtain ⟨_, trail, ht, _⟩ := h
  exact ht.reaches

theorem WellFormed.trail_extends {st st' : Store} (hw : st.WellFormed) (he : st.Extends st')
    {root t : TypeId} {trail : List TypeId} (hroot : root < st.size) (h : st'.Trail root trail t) :
    st.Trail root trail t ∧ t < st.size := by
  induction h with
  | root => exact ⟨.root, hroot⟩
  | step _ hn hc ih =>
    rw [hw.mentions_extends he ih.2] at hc
    exact ⟨ih.1.step hn hc, (hw.sound _).inside hc⟩

theorem WellFormed.cycleEntry_extends {st st' : Store} (hw : st.WellFormed) (he : st.Extends st')
    {root t : TypeId} (hroot : root < st.size) (h : st'.CycleEntry root t) :
    st.CycleEntry root t := by
  obtain ⟨hr, trail, ht, hm⟩ := h
  obtain ⟨ht, hlt⟩ := hw.trail_extends he hroot ht
  exact ⟨he.isReserved hlt ▸ hr, trail, ht, hm⟩

def Unbound (st : Store) (params : Bindings) (t : TypeId) : Prop :=
  ∀ u, st.Reaches t u → (∀ name, st.form? u ≠ some (.infer name)) ∧
    ∀ name, st.form? u = some (.param name) → params.get? name = none

/-- The scan before a rebuild finds nothing exactly if there is nothing to replace. -/
theorem containsBound_eq_false {st : Store} (founded : st.Founded) {params : Bindings}
    {t : TypeId} :
    st.containsBound params.contains t = false ↔ st.Unbound params t := by
  rw [← Bool.not_eq_true, containsBound, reaches_iff founded fun _ => rfl]
  constructor
  · intro h u hu
    refine ⟨fun name hf => ?_, fun name hf => ?_⟩
    · obtain ⟨node, hn, hform⟩ := lookup_of_form hf
      cases node <;> simp only [form, reduceCtorEq] at hform
      exact h ⟨u, _, hu, hn, rfl⟩
    · obtain ⟨node, hn, hform⟩ := lookup_of_form hf
      cases node <;> simp only [form, reduceCtorEq, Form.param.injEq] at hform
      rw [hform] at hn
      cases hp : params.get? name with
      | none => rfl
      | some v => exact absurd ⟨u, _, hu, hn, by simp [Dict.contains, hp]⟩ h
  · rintro h ⟨u, node, hu, hn, ht⟩
    obtain ⟨hinfer, hparam⟩ := h u hu
    cases node with
    | infer name => exact hinfer name (form_of_lookup hn)
    | param name => simp [Dict.contains, hparam name (form_of_lookup hn)] at ht
    | _ => simp at ht

/-- Extensions bring in nothing to be replaced. -/
theorem WellFormed.unbound_extends {st st' : Store} (hw : st.WellFormed) (he : st.Extends st')
    {params : Bindings} {t : TypeId} (ht : t < st.size) :
    st'.Unbound params t ↔ st.Unbound params t := by
  unfold Unbound
  refine forall_congr' fun u => ?_
  rw [hw.reaches_extends he ht]
  refine imp_congr_right fun hu => ?_
  rw [hw.form_extends he (hw.lt_size_of_reaches ht hu)]

theorem Founded.unbound {st : Store} (founded : st.Founded) (params : Bindings) {t : TypeId}
    (ht : t.isIntrinsic = true) : st.Unbound params t := by
  obtain ⟨kind, rfl⟩ := TypeId.isIntrinsic_iff.mp ht
  intro u hu
  rw [founded.reaches hu, founded.form kind]
  exact ⟨nofun, nofun⟩

theorem Unbound.inferFree {st : Store} {params : Bindings} {t : TypeId} (h : st.Unbound params t) :
    st.InferFree t :=
  fun u hu => (h u hu).1

theorem InferFree.unbound {st : Store} {t : TypeId} (h : st.InferFree t) : st.Unbound .empty t :=
  fun u hu => ⟨h u hu, fun _ _ => rfl⟩

/-- What has no body mentions nothing. -/
theorem unbound_of_form {st : Store} {params : Bindings} {t : TypeId} (h : st.form? t = none) :
    st.Unbound params t := by
  intro u hu
  rcases Relation.ReflTransGen.cases_head hu with rfl | ⟨c, hc, _⟩
  · rw [h]
    exact ⟨nofun, nofun⟩
  · rw [mentions_eq, h] at hc
    cases hc

theorem inferFree_of_form {st : Store} {t : TypeId} (h : st.form? t = none) : st.InferFree t :=
  Unbound.inferFree (unbound_of_form h : st.Unbound .empty t)

end Store

namespace Substitution

section Rules

variable (st₀ : Store) (root : TypeId) (infers params : Bindings)
variable (R : TypeId → TypeId → Bool → Store → Prop)

/-- What a relation between types and their replacements must be kept by, to hold of all answers of
a walk through `root`. The relation may depend on whether a limit was hit. -/
structure Rules : Prop where
  valid {t a : TypeId} {b : Bool} {st : Store} : R t a b st → a < st.size
  stable {t a : TypeId} {b b' : Bool} {st st' : Store} : (b = true → b' = true) → Later st st' →
    R t a b st → R t a b' st'
  limit {t : TypeId} {st : Store} : st.WellFormed → R t .never true st
  unbound {t : TypeId} {b : Bool} {st : Store} : st.WellFormed → st₀.Extends st →
    st₀.Reaches root t → st₀.Unbound params t → R t t b st
  cycle {t : TypeId} {b : Bool} {st : Store} : st.WellFormed → st₀.Extends st →
    st₀.CycleEntry root t → R t t b st
  rebuilt {t a : TypeId} {b : Bool} {st : Store} : st.WellFormed → st₀.Extends st →
    st₀.Reaches root t → ¬ st₀.Unbound params t →
    Rebuilt (fun x y => x ∈ st₀.mentions t ∧ R x y b st) st infers params t (st₀.form? t) a →
    R t a b st
  /-- A fresh placeholder for a placeholder. -/
  empty {t u : TypeId} {b : Bool} {st : Store} : st.WellFormed → st₀.Reaches root t →
    st₀.isReserved t = true → st.cells[u]? = some (.reserved none) → R t u b st
  /-- Giving a fresh placeholder the rebuilt body of the placeholder that it stands for. -/
  filled {t u x a : TypeId} {f : Form} {body : Node} {b : Bool} {st : Store} :
    st₀.Reaches root t → st₀.isReserved t = true → st₀.size ≤ u →
    st.cells[u]? = some (.reserved none) →
    body.isContainer = true → st.Placed body →
    FormLike (R · · b st) (SlotLike (R · · b st) st) f (st.form body) → R x a b st →
    R x a b (st.filled u body)

structure Held (s : State) : Prop where
  sound : s.2.WellFormed
  grown : st₀.Extends s.2
  infers : s.1.infers = infers
  params : s.1.params = params
  memo {t a : TypeId} : s.1.memo.get? t = some a → R t a s.1.guard.overrun s.2

structure Walk (s s' : State) : Prop where
  guard : s.1.guard.Kept s'.1.guard
  later : Later s.2 s'.2
  memo {t : TypeId} : (s.1.memo.get? t).isSome → (s'.1.memo.get? t).isSome
  held : Held st₀ infers params R s → Held st₀ infers params R s'

instance : Evolution (Walk st₀ infers params R) where
  refl _ := ⟨.refl _, Evolution.refl _, id, id⟩
  trans h h' := ⟨h.guard.trans h'.guard, Evolution.trans h.later h'.later,
    fun ht => h'.memo (h.memo ht), fun hs => h'.held (h.held hs)⟩

structure Comes (s : State) (t : TypeId) : Prop where
  held : Held st₀ infers params R s
  trail : st₀.Trail root s.1.guard.visiting t
  known {u : TypeId} : u ∈ s.1.guard.visiting → st₀.isReserved u = true →
    (s.1.memo.get? u).isSome

end Rules

namespace Rules

variable {st₀ : Store} {root : TypeId} {infers params : Bindings}
variable {R : TypeId → TypeId → Bool → Store → Prop} (rules : Rules st₀ root infers params R)
variable (hw₀ : st₀.WellFormed) (hroot : root < st₀.size)

include rules

theorem walk_store {s : State} {st' : Store} (h : Later s.2 st') :
    Walk st₀ infers params R s (s.1, st') where
  guard := .refl _
  later := h
  memo := id
  held hs :=
    { hs with
      sound := h.sound hs.sound
      grown := hs.grown.trans h.grown
      memo := fun hm => rules.stable id h (hs.memo hm) }

theorem held_guard {s : State} (hs : Held st₀ infers params R s) {g : Guard TypeId}
    (h : s.1.guard.overrun = true → g.overrun = true) :
    Held st₀ infers params R ({ s.1 with guard := g }, s.2) :=
  { hs with memo := fun hm => rules.stable h (Evolution.refl _) (hs.memo hm) }

theorem walk_guard {s : State} {g : Guard TypeId} (h : s.1.guard.Kept g) :
    Walk st₀ infers params R s ({ s.1 with guard := g }, s.2) where
  guard := h
  later := Evolution.refl _
  memo := id
  held hs := rules.held_guard hs h.overrun

theorem walk_leave {s s' : State} {t : TypeId} {g : Guard TypeId}
    (hi : Guard.Inside t s.1.guard g)
    (h : Walk st₀ infers params R ({ s.1 with guard := g }, s.2) s') :
    Walk st₀ infers params R s ({ s'.1 with guard := s'.1.guard.leave t }, s'.2) where
  guard := hi.leave h.guard
  later := h.later
  memo := h.memo
  held hs := rules.held_guard (h.held (rules.held_guard hs hi.overrun))
    fun ho => (Guard.leave_overrun _ t).trans ho

theorem stable_walk (t a : TypeId) :
    Stable (Walk st₀ infers params R) fun s => R t a s.1.guard.overrun s.2 :=
  fun _ _ h hr => rules.stable h.guard.overrun h.later hr

omit rules in
theorem leads_remember {s : State} {t a : TypeId} (h : R t a s.1.guard.overrun s.2) :
    Leads (Walk st₀ infers params R) (remember t a) s fun _ s' =>
      R t a s'.1.guard.overrun s'.2 ∧ (s'.1.memo.get? t).isSome ∧ s'.1.guard = s.1.guard := by
  refine leads_modify ⟨.refl _, Evolution.refl _, fun {u} hu => ?_, fun hs => ?_⟩ ⟨h, ?_, rfl⟩
  · rw [Dict.get?_insert]
    split
    · rfl
    · exact hu
  · refine { hs with memo := fun {u v} hu => ?_ }
    rw [Dict.get?_insert] at hu
    split at hu
    · rename_i he
      cases hu
      exact he ▸ h
    · exact hs.memo hu
  · rw [Dict.get?_insert, if_pos rfl]
    rfl

include hw₀ hroot

/-- Replacing in the parts of a type on the way, if the levels below do their part. -/
theorem leads_rebuildParts {replace : TypeId → SubstM TypeId} {t : TypeId} {s : State}
    (hs : Held st₀ infers params R s) (ht : st₀.Reaches root t)
    (hrep : ∀ s', Walk st₀ infers params R s s' → ∀ c ∈ st₀.mentions t,
      Leads (Walk st₀ infers params R) (replace c) s' fun a s'' =>
      R c a s''.1.guard.overrun s''.2) :
    Leads (Walk st₀ infers params R) (rebuild replace t) s fun a s' =>
      Rebuilt (fun x y => x ∈ st₀.mentions t ∧ R x y s'.1.guard.overrun s'.2) s'.2 infers params t
        (st₀.form? t) a := by
  have hlt : t < st₀.size := hw₀.lt_size_of_reaches hroot ht
  have h := leads_rebuild (R := fun x y s' => x ∈ st₀.mentions t ∧ R x y s'.1.guard.overrun s'.2)
    (fun h => h.later) (fun h => rules.walk_store h)
    (fun x y _ _ h hxy => ⟨hxy.1, rules.stable_walk x y h hxy.2⟩) (fun h => rules.valid h.2)
    hs.sound (t := t) fun s' h' c hc => by
      rw [hw₀.mentions_extends hs.grown hlt] at hc
      exact (hrep s' h' c hc).mono fun _ _ _ ha => ⟨hc, ha⟩
  rw [hw₀.form_extends hs.grown hlt, hs.infers, hs.params] at h
  exact h

/-- Rebuilding a type that was interned. -/
theorem leads_rebuildInterned {replace : TypeId → SubstM TypeId} {t : TypeId} {s : State}
    (hs : Held st₀ infers params R s) (ht : st₀.Reaches root t) (hbound : ¬ st₀.Unbound params t)
    (hrep : ∀ s', Walk st₀ infers params R s s' → ∀ c ∈ st₀.mentions t,
      Leads (Walk st₀ infers params R) (replace c) s' fun a s'' =>
      R c a s''.1.guard.overrun s''.2) :
    Leads (Walk st₀ infers params R)
      (rebuild replace t >>= fun rebuilt => remember t rebuilt >>= fun _ => pure rebuilt) s
      fun a s' => R t a s'.1.guard.overrun s'.2 := by
  refine (rules.leads_rebuildParts hw₀ hroot hs ht hrep).bind fun a s₁ h₁ ha => ?_
  have hs₁ := h₁.held hs
  refine (leads_remember (rules.rebuilt hs₁.sound hs₁.grown ht hbound ha)).bind fun _ s₂ _ hr => ?_
  exact Leads.pure hr.1

def openReserved (replace : TypeId → SubstM TypeId) (t : TypeId) : SubstM (TypeId × TypeId) := do
  let fresh ← Store.reserve
  remember t fresh
  return (fresh, ← rebuild replace t)

def closeReserved (t fresh rebuilt : TypeId) : SubstM TypeId := do
  let body := ((← getThe Store).lookup rebuilt).getD (.intrinsic .never)
  match ← Store.define fresh body with
  | .ok () => return fresh
  | .error _ =>
    remember t rebuilt
    return rebuilt

omit rules hw₀ hroot in
theorem rebuildReserved_eq (replace : TypeId → SubstM TypeId) (t : TypeId) :
    rebuildReserved replace t = openReserved replace t >>= fun r => closeReserved t r.1 r.2 :=
  rfl

omit rules hw₀ hroot in
theorem run_closeReserved {t fresh rebuilt : TypeId} {s : State}
    (hc : s.2.cells[fresh]? = some (.reserved none)) :
    Action.run (closeReserved t fresh rebuilt) s =
      (fresh, s.1, s.2.filled fresh ((s.2.lookup rebuilt).getD (.intrinsic .never))) := by
  have hdefine (body : Node) :
      Action.run (liftM (Store.define fresh body) : SubstM (Except StoreError Unit)) s =
        (.ok (), s.1, s.2.filled fresh body) := by
    show (((Store.define fresh body).run s.2).1, s.1, ((Store.define fresh body).run s.2).2) = _
    rw [Store.run_define_empty hc]
  have hread (f : Store → SubstM TypeId) : Action.run (getThe Store >>= f) s =
      Action.run (f s.2) s := rfl
  rw [closeReserved, hread, Action.run_bind, hdefine]
  rfl

/-- A placeholder in the template becomes a placeholder of the answer. -/
theorem leads_rebuildReserved {replace : TypeId → SubstM TypeId} {t : TypeId} {s : State}
    (hs : Held st₀ infers params R s) (ht : st₀.Reaches root t) (hres : st₀.isReserved t = true)
    (hbound : ¬ st₀.Unbound params t)
    (hrep : ∀ s', Walk st₀ infers params R s s' → (s'.1.memo.get? t).isSome →
      ∀ c ∈ st₀.mentions t, Leads (Walk st₀ infers params R) (replace c) s'
        fun a s'' => R c a s''.1.guard.overrun s''.2) :
    Leads (Walk st₀ infers params R) (rebuildReserved replace t) s
      fun a s' => R t a s'.1.guard.overrun s'.2 := by
  obtain ⟨f, hf⟩ := Option.ne_none_iff_exists'.mp fun hf => hbound (Store.unbound_of_form hf)
  have hcontainer : f.isContainer = true := hw₀.form_reserved hres hf
  have hopen : Leads (Walk st₀ infers params R) (openReserved replace t) s fun r s' =>
      s.2.size ≤ r.1 ∧ s'.2.cells[r.1]? = some (.reserved none) ∧ R t r.1 s'.1.guard.overrun s'.2 ∧
        Rebuilt (R · · s'.1.guard.overrun s'.2) s'.2 infers params t (some f) r.2 := by
    obtain ⟨hlater, hfresh, hcell⟩ := Store.leads_reserve hs.sound
    have hlift : Leads (Walk st₀ infers params R) (liftM Store.reserve : SubstM TypeId) s
        fun u s' => u = s.2.size ∧ s'.2.cells[u]? = some (.reserved none) :=
      leads_lift (rules.walk_store hlater) ⟨hfresh, hcell⟩
    refine hlift.bind fun fresh s₁ h₁ h => ?_
    obtain ⟨rfl, hcell⟩ := h
    have hs₁ := h₁.held hs
    refine (leads_remember (rules.empty hs₁.sound ht hres hcell)).bind fun _ s₂ h₂ hr => ?_
    have hs₂ := h₂.held hs₁
    have hlt : s.2.size < s₁.2.size := (List.getElem?_eq_some_iff.mp hcell).1
    have hparts := rules.leads_rebuildParts hw₀ hroot hs₂ ht fun s' h' c hc =>
      hrep s' (Evolution.trans h₁ (Evolution.trans h₂ h')) (h'.memo hr.2.1) c hc
    rw [hf] at hparts
    refine hparts.bind fun a s₃ h₃ ha =>
      Leads.pure ⟨Nat.le_refl _, ?_, ?_, ha.mono fun _ _ h => h.2⟩
    · rw [(h₂.later.grown.trans h₃.later.grown).cell hlt]
      exact hcell
    · exact rules.stable_walk _ _ h₃ hr.1
  rw [rebuildReserved_eq]
  refine hopen.andThen fun r s' h' h => ?_
  obtain ⟨hfresh, hcell, hr, hrebuilt⟩ := h
  have hs' := h'.held hs
  obtain ⟨y, hlike, hmade, hy⟩ := hrebuilt.container hs'.sound.indexed hcontainer
  obtain ⟨body, hlookup, rfl⟩ := Store.lookup_of_form hmade.form
  have hk : body.isContainer = true := Store.form_isContainer s'.2 body ▸ hy
  have hmentions : ∀ c ∈ (s'.2.form body).mentions, c < s'.2.size := fun c hc =>
    (hs'.sound.sound r.2).inside (Store.mentions_of_form hmade.form ▸ hc)
  have hplaced := (hs'.sound.sound r.2).placed hlookup
  have hsound := hs'.sound.filled hcell hk hplaced hmentions
  have hfilled {x a : TypeId} (hx : R x a s'.1.guard.overrun s'.2) :=
    rules.filled ht hres (Nat.le_trans hs.grown.size hfresh) hcell hk hplaced hlike hx
  rw [run_closeReserved hcell, hlookup, Option.getD_some]
  refine ⟨⟨h'.guard, ⟨h'.later.grown.filled hcell hfresh, fun _ => hsound⟩, h'.memo, fun _ => ?_⟩,
    hfilled hr⟩
  exact
    { hs' with
      sound := hsound
      grown := hs'.grown.filled hcell (Nat.le_trans hs.grown.size hfresh)
      memo := fun hm => hfilled (hs'.memo hm) }

/-- Rebuilding a type of either sort, if the levels below do their part. -/
theorem leads_rebuildAny {replace : TypeId → SubstM TypeId} {t : TypeId} {s : State}
    (hs : Held st₀ infers params R s) (ht : st₀.Reaches root t) (hbound : ¬ st₀.Unbound params t)
    (hrep : ∀ s', Walk st₀ infers params R s s' →
      (st₀.isReserved t = true → (s'.1.memo.get? t).isSome) → ∀ c ∈ st₀.mentions t,
        Leads (Walk st₀ infers params R) (replace c) s' fun a s'' =>
        R c a s''.1.guard.overrun s''.2) :
    Leads (Walk st₀ infers params R) (rebuildAny replace t) s
      fun a s' => R t a s'.1.guard.overrun s'.2 := by
  have hsame := hs.grown.isReserved (hw₀.lt_size_of_reaches hroot ht)
  unfold rebuildAny
  refine leads_getStore ?_
  split
  · rename_i hres
    exact rules.leads_rebuildReserved hw₀ hroot hs ht (hsame ▸ hres) hbound
      fun s' h' hm' => hrep s' h' fun _ => hm'
  · rename_i hres
    refine rules.leads_rebuildInterned hw₀ hroot hs ht hbound fun s' h' => hrep s' h' fun hr => ?_
    exact absurd (hsame.trans hr) hres

/-- One level of the walk, if the levels below do their part while it is being visited. -/
theorem leads_step {replace : TypeId → SubstM TypeId} {t : TypeId} {s : State}
    (hc : Comes st₀ root infers params R s t)
    (hrep : ∀ g, Guard.Inside t s.1.guard g → ∀ s' c, g.Kept s'.1.guard →
      Comes st₀ root infers params R s' c → Leads (Walk st₀ infers params R) (replace c) s'
        fun a s'' => R c a s''.1.guard.overrun s''.2) :
    Leads (Walk st₀ infers params R) (step replace t) s
      fun a s' => R t a s'.1.guard.overrun s'.2 := by
  have hs := hc.held
  have ht := hc.trail.reaches
  have hlt : t < st₀.size := hw₀.lt_size_of_reaches hroot ht
  unfold step
  split
  · rename_i hi
    exact Leads.pure (rules.unbound hs.sound hs.grown ht (hw₀.founded.unbound params hi))
  · refine leads_get ?_
    split
    · rename_i known hm
      exact Leads.pure (hs.memo hm)
    · rename_i hm
      refine leads_getStore ?_
      have hscan : s.2.containsBound params.contains t = false ↔ s.2.Unbound params t :=
        Store.containsBound_eq_false (hs.grown.founded hw₀.founded)
      rw [hw₀.unbound_extends hs.grown hlt] at hscan
      rw [hs.params]
      split
      · rename_i hyes
        have hbound : ¬ st₀.Unbound params t := by simp [← hscan, hyes]
        refine leads_visit (fun g hi => ?_) (fun g hv hk => ?_) (fun g ho hk => ?_)
        · have hs₁ := rules.held_guard hs hi.overrun
          -- Below this visit the path has grown by one type, which is remembered if it must be.
          have hcomes (s' : State) (h' : Walk st₀ infers params R ({ s.1 with guard := g }, s.2) s')
              (hres : st₀.isReserved t = true → (s'.1.memo.get? t).isSome) :
              ∀ c ∈ st₀.mentions t, Leads (Walk st₀ infers params R) (replace c) s'
                fun a s'' => R c a s''.1.guard.overrun s''.2 := by
            intro c hmem
            have hv : s'.1.guard.visiting = t :: s.1.guard.visiting :=
              h'.guard.visiting.trans hi.visiting
            refine hrep g hi s' c h'.guard ⟨h'.held hs₁, hv ▸ hc.trail.step hi.new hmem,
              fun {u} hu hr => ?_⟩
            rcases List.mem_cons.mp (hv ▸ hu) with rfl | hu
            · exact hres hr
            · exact h'.memo (hc.known hu hr)
          have hbody := rules.leads_rebuildAny hw₀ hroot hs₁ ht hbound hcomes
          exact ⟨rules.walk_leave hi hbody.1,
            rules.stable (fun ho => (Guard.leave_overrun _ t).trans ho)
            (Evolution.refl _) hbody.2⟩
        · refine ⟨rules.walk_guard hk, rules.cycle hs.sound hs.grown ⟨?_, _, hc.trail, hv⟩⟩
          cases hr : st₀.isReserved t with
          | false => rfl
          | true => simpa [hm] using hc.known hv hr
        · refine ⟨rules.walk_guard hk, ?_⟩
          show R t .never g.overrun s.2
          rw [ho]
          exact rules.limit hs.sound
      · rename_i hno
        have hr : R t t s.1.guard.overrun s.2 :=
          rules.unbound hs.sound hs.grown ht (hscan.mp (Bool.not_eq_true _ ▸ hno))
        exact (leads_remember hr).bind fun _ _ _ h => Leads.pure h.1

/-- The walk does its part if there is room for every level that the guard allows. -/
theorem leads_descend {room : Nat} {t : TypeId} {s : State}
    (hc : Comes st₀ root infers params R s t)
    (hroom : s.1.guard.limits.depth ≤ room + s.1.guard.depth) :
    Leads (Walk st₀ infers params R) (descend step (fun _ => return .never) room t) s
      fun a s' => R t a s'.1.guard.overrun s'.2 := by
  induction room generalizing t s with
  | zero =>
    refine rules.leads_step hw₀ hroot hc fun g hi => ?_
    have := hi.room
    omega
  | succ room ih =>
    refine rules.leads_step hw₀ hroot hc fun g hi s' c hk hc' => ih hc' ?_
    rw [hk.limits, hk.depth, hi.limits, hi.depth]
    omega

/-- What a substitution answers between two visits, whatever it remembers. -/
theorem leads_applyHeld {s : Substitution} (hs : Held st₀ infers params R (s, st₀))
    (hv : s.guard.visiting = []) :
    Leads (Walk st₀ infers params R) (apply root) (s, st₀)
      fun a s' => R root a s'.1.guard.overrun s'.2 := by
  unfold apply
  refine leads_get (rules.leads_descend hw₀ hroot ⟨hs, ?_, fun h => ?_⟩ (Nat.le_add_right _ _))
  · show st₀.Trail root s.guard.visiting root
    rw [hv]
    exact .root
  · have h : _ ∈ s.guard.visiting := h
    simp [hv] at h

/-- What a substitution that has just begun answers. -/
theorem leads_apply {s : Substitution} (hi : s.infers = infers) (hp : s.params = params)
    (hv : s.guard.visiting = []) (hm : s.memo = .empty) :
    Leads (Walk st₀ infers params R) (apply root) (s, st₀)
      fun a s' => R root a s'.1.guard.overrun s'.2 := by
  have hnone (t : TypeId) : s.memo.get? t = none := by rw [hm]; rfl
  exact rules.leads_applyHeld hw₀ hroot ⟨hw₀, .refl st₀, hi, hp, fun h => by simp [hnone] at h⟩ hv

end Rules

section Kinds

variable {P : Store → TypeId → Prop} (kind : Store.Kind P) {st₀ : Store} {root : TypeId}
variable {infers params : Bindings} (hw₀ : st₀.WellFormed) (hroot : root < st₀.size)

include kind

section Parts

variable {st : Store} (hw : st.WellFormed) {R : TypeId → TypeId → Prop}
variable (hR : ∀ x y, R x y → P st y)

include hw hR

theorem FormLike.ofKind {x y : Form} (h : FormLike R (SlotLike R st) x y) :
    ∀ c ∈ y.mentions, P st c := by
  apply h.forall_mentions hR
  rintro slot ys ⟨t, ht, rfl | ⟨_, hf⟩⟩ y hy
  · obtain rfl := List.mem_singleton.mp hy
    exact hR _ _ ht
  · apply kind.child hw (hR _ _ ht)
    exact Store.mentions_of_form hf ▸ Form.slot_mentioned (f := .tuple ys) hy

/-- Parts and bindings of a kind make a type of that kind. -/
theorem Rebuilt.ofKind {t a : TypeId} {f : Option Form} (hf : st.form? t = f)
    (h : Rebuilt R st infers params t f a) (hinfers : infers.AreOf P st)
    (hparams : params.AreOf P st) (undefined : f = none → P st t) : P st a := by
  cases h with
  | undefined => exact undefined rfl
  | intrinsic | literal => exact kind.built hw hf nofun nofun
  | @infer name =>
    cases hb : infers.get? name with
    | none => exact kind.intrinsic .never hw
    | some v => exact hinfers name v hb
  | @param name =>
    cases hb : params.get? name with
    | none => exact kind.built hw hf nofun nofun
    | some v => exact hparams name v hb
  | @built x y _ h hb =>
    have hlike := h.mono (fun _ _ h => h) fun _ _ h => h.like
    obtain ⟨_, hp⟩ := kind.leads_build (f := y) hw (fun name he => by cases he ▸ h)
      (hlike.ofKind kind hw hR)
    rw [show Action.run y.build st = (a, st) from hb] at hp
    exact hp

end Parts

include hw₀ hroot

/-- Bindings of a kind make all answers types of that kind, if the types at which the template runs
into itself belong to it. -/
theorem rules_kinds (free : ∀ st t, st.WellFormed → t < st.size → st.InferFree t → P st t)
    (hinfers : infers.AreOf P st₀) (hparams : params.AreOf P st₀)
    (cycle : ∀ t, st₀.CycleEntry root t → P st₀ t) :
    Rules st₀ root infers params fun _ a _ st => st.WellFormed ∧ P st a where
  valid h := kind.lt_size h.2
  stable _ hs h := ⟨hs.sound h.1, kind.later h.1 hs.grown h.2⟩
  limit hw := ⟨hw, kind.intrinsic .never hw⟩
  unbound hw he ht hu := ⟨hw, kind.later hw₀ he
    (free _ _ hw₀ (hw₀.lt_size_of_reaches hroot ht) hu.inferFree)⟩
  cycle hw he hc := ⟨hw, kind.later hw₀ he (cycle _ hc)⟩
  rebuilt {t a b st} hw he ht _ h := by
    have hlt := hw₀.lt_size_of_reaches hroot ht
    refine ⟨hw, h.ofKind kind hw (fun _ _ h => h.2.2) (hw₀.form_extends he hlt)
      (hinfers.later kind hw₀ he) (hparams.later kind hw₀ he) fun hf => ?_⟩
    exact kind.later hw₀ he (free _ _ hw₀ hlt (Store.inferFree_of_form hf))
  empty {t u b st} hw _ _ hc := by
    have hn : st.form? u = none := Store.form?_eq_none.mpr (by simp [Store.lookup, hc, Cell.node?])
    exact ⟨hw, free _ _ hw (List.getElem?_eq_some_iff.mp hc).1 (Store.inferFree_of_form hn)⟩
  filled _ _ _ hc hk hplaced hlike h := by
    obtain ⟨hw, hp⟩ := h
    have hparts := hlike.ofKind kind hw fun _ _ h => h.2
    exact ⟨hw.filled hc hk hplaced fun c hm => kind.lt_size (hparts c hm),
      kind.filled hw hc hk hparts hp⟩

/-- A substitution that is used once answers with types of the kind that its bindings are of. -/
theorem leads_applyOnce {s : Substitution}
    (free : ∀ st t, st.WellFormed → t < st.size → st.InferFree t → P st t)
    (hv : s.guard.visiting = []) (hm : s.memo = .empty)
    (hinfers : s.infers.AreOf P st₀) (hparams : s.params.AreOf P st₀)
    (cycle : ∀ t, st₀.CycleEntry root t → P st₀ t) :
    Leads Later (s.applyOnce root) st₀ fun a st' => P st' a := by
  have rules := rules_kinds kind hw₀ hroot free hinfers hparams cycle
  obtain ⟨hwalk, _, hp⟩ := rules.leads_apply hw₀ hroot rfl rfl hv hm
  exact leads_run hwalk.later hp

end Kinds

end Substitution

end TypeCalculus
