import TypeCalculus.Proofs.IntersectionAlgebra
import TypeCalculus.Proofs.MatchWalk

namespace TypeCalculus

def Evaluator.acceptor (t : TypeId) : Signature :=
  { params := [{ type := t, name := some "x" }], result := .any }

structure Store.Opens (st : Store) (pattern r : TypeId) : Prop where
  pattern : st.form? pattern = some (.function (Evaluator.acceptor r))
  infer : st.cells[r]? = some (.interned (.infer "R"))

theorem Store.Opens.later {st st' : Store} {pattern r : TypeId} (h : st.Opens pattern r)
    (ha : st.Anchored) (hs : st.Extends st') : st'.Opens pattern r where
  pattern := (ha.form_extends hs (lt_size_of_form h.pattern)).trans h.pattern
  infer := (hs.cell (List.getElem?_eq_some_iff.mp h.infer).1).trans h.infer

theorem Store.Opens.lookup {st : Store} {pattern r : TypeId} (h : st.Opens pattern r) :
    st.lookup r = some (.infer "R") :=
  (interned_iff.mp h.infer).1

section Functions

variable {st : Store} {f : TypeId} {signature : Signature}
  (h : st.form? f = some (.function signature))

include h

theorem Store.lookup_function :
    ∃ id, st.lookup f = some (.function id) ∧ st.signature id = signature := by
  obtain ⟨node, hl, hform⟩ := lookup_of_form h
  cases node <;> cases hform
  exact ⟨_, hl, rfl⟩

theorem Store.Founded.ne_of_function (hf : st.Founded) (kind : Intrinsic) : f ≠ kind.id := by
  rintro rfl
  obtain ⟨id, hl, _⟩ := lookup_function h
  cases (hf.lookup kind).symm.trans hl

end Functions

theorem Store.Opens.isTop {st : Store} {pattern r : TypeId} (h : st.Opens pattern r)
    (hf : st.Founded) :
    pattern.isTop = false := by
  simp only [TypeId.isTop, Bool.or_eq_false_iff, decide_eq_false_iff_not]
  exact ⟨hf.ne_of_function h.pattern .any, hf.ne_of_function h.pattern .unknown⟩

/-- A type that takes each of some types: the function that takes the only one, or an intersection
of functions that take one each. -/
inductive Store.Combines (st : Store) : List TypeId → TypeId → Prop
  | one {m f : TypeId} (h : st.form? f = some (.function (Evaluator.acceptor m))) :
      Combines st [m] f
  | several {ms fs : List TypeId} {t : TypeId} (ht : st.form? t = some (.intersection fs))
      (hne : fs ≠ [])
    (h : List.Forall₂ (fun m f => st.form? f = some (.function (Evaluator.acceptor m))) ms fs) :
    Combines st ms t

theorem Store.lookup_intersection {st : Store} {t : TypeId} {ms : List TypeId}
    (h : st.form? t = some (.intersection ms)) :
    ∃ id, st.lookup t = some (.intersection id) ∧ st.list id = ms := by
  obtain ⟨node, hl, hform⟩ := lookup_of_form h
  cases node <;> cases hform
  exact ⟨_, hl, rfl⟩

namespace Bindings

open Store (Crosses crosses_mkIntersection)

variable (bindings : Bindings) (name : String) (st : Store)

theorem crosses_bind (candidate : TypeId) :
    st.Crosses ((bindings.bind name candidate .contravariant).run st).2 := by
  cases h : bindings.get? name with
  | none =>
    rw [run_bind_unbound candidate .contravariant st h]
    exact .refl st
  | some held =>
    rw [run_bind_held candidate .contravariant st h]
    exact crosses_mkIntersection st [held, candidate]

theorem run_bindAll_cons (candidate : TypeId) (candidates : List TypeId) (v : Variance) :
    (bindings.bindAll name (candidate :: candidates) v).run st =
      let first := (bindings.bind name candidate v).run st
      (bindAll first.1 name candidates v).run first.2 := by
  unfold bindAll
  rw [List.foldlM_cons]
  rfl

/-- Binding where values flow in builds intersections only. -/
theorem crosses_bindAll (candidates : List TypeId) :
    st.Crosses ((bindings.bindAll name candidates .contravariant).run st).2 := by
  induction candidates generalizing bindings st with
  | nil => exact .refl st
  | cons candidate candidates ih =>
    rw [run_bindAll_cons]
    exact (crosses_bind bindings name st candidate).trans (ih _ _)

end Bindings

namespace Matcher

open Evaluator (acceptor)

variable {s s' : State}

section Step

variable {ask : Goal → MatchM Bool}

theorem run_getStore (s : State) : Action.run (getThe Store : MatchM Store) s = (s.2, s) := rfl

/-- A goal that is not settled at once is visited. -/
theorem run_step_visit {goal : Goal} {node : Node} (hne : goal.subject ≠ goal.pattern)
    (hl : s.2.lookup goal.pattern = some node) (hinfer : ∀ name, node ≠ .infer name)
    (htop : goal.pattern.isTop = false) (hnever : goal.subject ≠ .never)
    (hany : goal.subject ≠ .any) :
    Action.run (step ask goal) s =
    Action.run (visit goal true false (matchStructure ask goal node)) s := by
  unfold step
  rw [if_neg hne, Action.run_bind, run_getStore]
  simp only [hl]
  cases node with
  | infer name => exact absurd rfl (hinfer name)
  | _ => simp [htop, hnever, hany]

/-- Against a variable a goal is settled by binding it, without a visit. -/
theorem run_step_infer {goal : Goal} {name : String} (hne : goal.subject ≠ goal.pattern)
    (hl : s.2.lookup goal.pattern = some (.infer name)) :
    Action.run (step ask goal) s =
      let bound := (s.1.bindings.bind name goal.subject goal.variance).run s.2
      (true, { s.1 with bindings := bound.1 }, bound.2) := by
  unfold step
  rw [if_neg hne, Action.run_bind, run_getStore]
  simp only [hl]
  rfl

theorem run_step_same {goal : Goal} (h : goal.subject = goal.pattern) :
    Action.run (step ask goal) s = (true, s) := by
  unfold step
  rw [if_pos h]
  rfl

/-- A pattern that is an infer variable is found to contain one. -/
theorem run_containsInfer {t : TypeId} (hscanned : s.1.scanned.get? t ≠ some false)
    (ht : s.2.containsInfer t = true) :
    ∃ m : Matcher, Action.run (containsInfer t) s = (true, m, s.2) ∧
      m.guard = s.1.guard ∧ m.bindings = s.1.bindings ∧ m.scanned.get? t = some true := by
  have hget : Action.run (get : MatchM Matcher) s = (s.1, s) := rfl
  unfold containsInfer
  rw [Action.run_bind, hget]
  cases hs : s.1.scanned.get? t with
  | some answer =>
    cases answer with
    | false => exact absurd hs hscanned
    | true => exact ⟨s.1, rfl, rfl, rfl, hs⟩
  | none =>
    simp only
    rw [Action.run_bind, run_getStore, ht]
    exact ⟨_, rfl, rfl, rfl, (Dict.get?_insert ..).trans (if_pos rfl)⟩

/-- One function is matched against another, each of one parameter and with the result `any`. -/
theorem run_matchSignature {m r : TypeId} {v : Variance} {after : State}
    (hparam : Action.run (askParameter ask m r v) s = (true, after))
    (hresult : Action.run (ask ⟨.any, .any, v⟩) after = (true, after)) :
    Action.run (matchSignature ask (acceptor m) (acceptor r) v) s = (true, after) := by
  have hparams :
      Action.run (matchParams ask (acceptor m).params (acceptor r).params v) s = (true, after) := by
    show Action.run (List.allM (fun _ => askParameter ask m r v) [()]) s = _
    unfold List.allM
    rw [Action.run_bind, hparam]
    rfl
  have hsignature : Action.run (matchSignature ask (acceptor m) (acceptor r) v) s =
      Action.run (do
        if ← matchParams ask (acceptor m).params (acceptor r).params v then ask ⟨.any, .any, v⟩
        else return false) s := rfl
  rw [hsignature, Action.run_bind, hparams]
  exact hresult

end Step

/-- A visit that is admitted does what its body does. -/
theorem run_visit_entered {goal : Goal} (hnew : goal ∉ s.1.guard.visiting)
    (hroom : s.1.guard.depth < s.1.guard.limits.depth)
    (hcount : s.1.guard.iterations < s.1.guard.limits.iterations) :
    ∃ g : Guard Goal, Guard.Inside goal s.1.guard g ∧ g.iterations ≤ s.1.guard.iterations + 1 ∧
      ∀ (body : MatchM Bool) (b : Bool) (after : State),
        Action.run body (Guarded.setGuard g s.1, s.2) = (b, after) →
        Action.run (visit goal true false body) s =
          (b, Guarded.setGuard (after.1.guard.leave goal) after.1, after.2) := by
  obtain ⟨g, henter, hinside, hiterations, _⟩ := Guard.enter_new (by omega) hroom hnew
  refine ⟨g, hinside, by omega, fun body b after hbody => ?_⟩
  have henter : (Guarded.guard s.1).enter goal = (.entered, g) := henter
  rw [run_visit, henter]
  simp only [hbody]
  rfl

/-- The variable was shown some candidates, each in a visit of its own. -/
structure Shows (r : TypeId) (candidates : List TypeId) (s s' : State) : Prop where
  guard : s.1.guard.Kept s'.1.guard
  counted : s'.1.guard.iterations ≤ s.1.guard.iterations + candidates.length
  scanned : s.1.scanned.get? r ≠ some false → s'.1.scanned.get? r ≠ some false
  bound : (s.1.bindings.bindAll "R" candidates .contravariant).run s.2 = (s'.1.bindings, s'.2)

theorem Shows.cons {r m : TypeId} {ms : List TypeId} {s'' : State} (h : Shows r [m] s s')
    (h' : Shows r ms s' s'') : Shows r (m :: ms) s s'' where
  guard := h.guard.trans h'.guard
  counted := by
    have := h.counted
    have := h'.counted
    simp only [List.length_cons, List.length_nil] at *
    omega
  scanned hs := h'.scanned (h.scanned hs)
  bound := by
    have hfirst : (s.1.bindings.bind "R" m .contravariant).run s.2 = (s'.1.bindings, s'.2) :=
      h.bound
    rw [Bindings.run_bindAll_cons, hfirst]
    exact h'.bound

theorem Shows.grown {r : TypeId} {ms : List TypeId} (h : Shows r ms s s') : s.2.Extends s'.2 := by
  have hcrosses := Bindings.crosses_bindAll s.1.bindings "R" s.2 ms
  rw [h.bound] at hcrosses
  exact hcrosses.grown

/-- Every level is a step over some other. -/
theorem descend_eq_step (stop : Goal → MatchM Bool) (room : Nat) :
    ∃ below, descend step stop room = step below := by
  cases room with
  | zero => exact ⟨stop, rfl⟩
  | succ room => exact ⟨descend step stop room, rfl⟩

section Acceptors

variable {pattern r f m : TypeId} (hfounded : s.2.Founded) (hopens : s.2.Opens pattern r)
  (hscanned : s.1.scanned.get? r ≠ some false) (stop : Goal → MatchM Bool) (room : Nat)

include hfounded hopens hscanned

/-- The variable meets what a parameter takes. -/
theorem run_askParameter (hne : m ≠ r) : ∃ after : State,
    Action.run (askParameter (descend step stop room) m r .covariant) s = (true, after) ∧
      after.1.guard = s.1.guard ∧ after.1.scanned.get? r = some true ∧
      (s.1.bindings.bind "R" m .contravariant).run s.2 = (after.1.bindings, after.2) := by
  have hcontains : s.2.containsInfer r = true := by
    rw [← Bool.not_eq_false, Store.containsInfer_eq_false hfounded]
    exact fun h => h r .refl _ (Store.form_of_lookup hopens.lookup)
  obtain ⟨found, hfound, hguard, hbindings, hknown⟩ := run_containsInfer hscanned hcontains
  obtain ⟨below, hbelow⟩ := descend_eq_step stop room
  unfold askParameter
  rw [Action.run_bind, hfound, hbelow]
  simp only [if_true]
  rw [run_step_infer hne hopens.lookup]
  exact ⟨_, rfl, hguard, hknown, by rw [← hbindings]; rfl⟩

/-- Matching one function shows the variable what it takes. -/
theorem shows_acceptor (hm : s.2.form? f = some (.function (acceptor m))) (hne : m ≠ r)
    (hnew : (⟨f, pattern, .covariant⟩ : Goal) ∉ s.1.guard.visiting)
    (hroom : s.1.guard.depth < s.1.guard.limits.depth)
    (hcount : s.1.guard.iterations < s.1.guard.limits.iterations) :
    ∃ s', Action.run (descend step stop (room + 1) ⟨f, pattern, .covariant⟩) s = (true, s') ∧
      Shows r [m] s s' := by
  obtain ⟨p, hp, hpattern⟩ := Store.lookup_function hopens.pattern
  obtain ⟨i, hi, hsubject⟩ := Store.lookup_function hm
  have hdiffer : f ≠ pattern := by
    rintro rfl
    cases hm.symm.trans hopens.pattern
    exact hne rfl
  have hvisit : Action.run (descend step stop (room + 1) ⟨f, pattern, .covariant⟩) s = _ :=
    run_step_visit hdiffer hp (fun _ h => by cases h) (hopens.isTop hfounded)
      (hfounded.ne_of_function hm .never) (hfounded.ne_of_function hm .any)
  obtain ⟨g, hinside, hcounted, hbody⟩ := run_visit_entered hnew hroom hcount
  obtain ⟨after, hafter, hguard, hknown, hbound⟩ :=
    run_askParameter (s := (Guarded.setGuard g s.1, s.2)) hfounded hopens hscanned stop room hne
  have hstructure :
      Action.run (matchStructure (descend step stop room) ⟨f, pattern, .covariant⟩ (.function p))
        (Guarded.setGuard g s.1, s.2) = (true, after) := by
    obtain ⟨below, hbelow⟩ := descend_eq_step stop room
    unfold matchStructure
    rw [Action.run_bind, run_getStore]
    simp only [hi, matchNodes, hsubject, hpattern]
    apply run_matchSignature hafter
    rw [hbelow]
    exact run_step_same rfl
  refine ⟨_, hvisit.trans (hbody _ _ _ hstructure), ?_, ?_, ?_, hbound⟩
  · show s.1.guard.Kept (after.1.guard.leave _)
    rw [hguard]
    exact hinside.leave (.refl g)
  · show (after.1.guard.leave _).iterations ≤ s.1.guard.iterations + 1
    rw [Guard.leave_iterations, hguard]
    exact hcounted
  · intro _ hs
    cases hknown.symm.trans hs

end Acceptors

section Combined

variable {st : Store} {pattern r : TypeId} (ha : st.Anchored) (hopens : st.Opens pattern r)
  {ms : List TypeId} (hne : ∀ m ∈ ms, m ≠ r)

include ha hopens hne

/-- One function after another is matched, and none in vain. -/
theorem shows_acceptors {fs : List TypeId}
    (hfs : List.Forall₂ (fun m f => st.form? f = some (.function (acceptor m))) ms fs)
    (stop : Goal → MatchM Bool) (room : Nat) (matched : Bool) (hgrown : st.Extends s.2)
    (hscanned : s.1.scanned.get? r ≠ some false)
    (hnew : ∀ f ∈ fs, (⟨f, pattern, .covariant⟩ : Goal) ∉ s.1.guard.visiting)
    (hroom : s.1.guard.depth < s.1.guard.limits.depth)
    (hcount : s.1.guard.iterations + ms.length ≤ s.1.guard.limits.iterations) :
    ∃ s', Action.run (fs.foldlM (fun matched f => do
        if ← attempt (descend step stop (room + 1) ⟨f, pattern, .covariant⟩) then return true
        else return matched) matched) s = (matched || !fs.isEmpty, s') ∧ Shows r ms s s' := by
  induction hfs generalizing s matched with
  | nil =>
    refine ⟨s, ?_, .refl _, Nat.le_refl _, id, rfl⟩
    simp only [List.isEmpty_nil, Bool.not_true, Bool.or_false]
    rfl
  | @cons m f ms fs hf hfs ih =>
    simp only [List.length_cons] at hcount
    obtain ⟨s₁, hrun, hshows⟩ :=
      shows_acceptor (hgrown.founded ha.founded) (hopens.later ha hgrown) hscanned
      stop room ((ha.form_extends hgrown (Store.lt_size_of_form hf)).trans hf)
      (hne m List.mem_cons_self)
      (hnew f List.mem_cons_self) hroom (by omega)
    have hcounted : s₁.1.guard.iterations ≤ s.1.guard.iterations + 1 := hshows.counted
    obtain ⟨s₂, hrest, hshows'⟩ := ih (fun m' hm' => hne m' (List.mem_cons_of_mem m hm')) true
      (hgrown.trans hshows.grown) (hshows.scanned hscanned)
      (fun g hg => hshows.guard.visiting ▸ hnew g (List.mem_cons_of_mem f hg))
      (by rw [hshows.guard.depth, hshows.guard.limits]; exact hroom)
      (by rw [hshows.guard.limits]; omega)
    refine ⟨s₂, ?_, hshows.cons hshows'⟩
    have hattempt : Action.run (attempt (descend step stop (room + 1) ⟨f, pattern, .covariant⟩)) s =
        (true, s₁) := by
      have hget : Action.run (get : MatchM Matcher) s = (s.1, s) := rfl
      unfold attempt
      rw [Action.run_bind, hget, Action.run_bind, hrun]
      rfl
    rw [List.foldlM_cons, Action.run_bind, Action.run_bind, hattempt]
    simp only [if_true]
    rw [Action.run_pure]
    simpa using hrest

variable {limits : Limits} (hdepth : 1 < limits.depth) (hcount : ms.length < limits.iterations)

include hdepth hcount

/-- Matching the intersection of the functions shows the variable what each of them takes. -/
theorem shows_intersection {fs : List TypeId} {t : TypeId}
    (ht : st.form? t = some (.intersection fs)) (hfs : fs ≠ [])
    (hall : List.Forall₂ (fun m f => st.form? f = some (.function (acceptor m))) ms fs) :
    ∃ s', Action.run (ask limits ⟨t, pattern, .covariant⟩) (start limits, st) = (true, s') ∧
      (Bindings.bindAll .empty "R" ms .contravariant).run st = (s'.1.bindings, s'.2) := by
  obtain ⟨room, hlimit⟩ : ∃ room, limits.depth = room + 2 := ⟨limits.depth - 2, by omega⟩
  obtain ⟨p, hp, hpattern⟩ := Store.lookup_function hopens.pattern
  obtain ⟨id, hl, hlist⟩ := Store.lookup_intersection ht
  have hplain (kind : Intrinsic) : t ≠ kind.id := by
    rintro rfl
    cases (ha.founded.lookup kind).symm.trans hl
  have hdiffer : t ≠ pattern := by
    rintro rfl
    cases hl.symm.trans hp
  have hask : ask limits = step (descend step (fun _ => return false) (room + 1)) := by
    funext goal
    rw [ask, hlimit]
    rfl
  obtain ⟨g, hinside, hcounted, hbody⟩ := run_visit_entered (s := (start limits, st))
    (List.not_mem_nil (a := (⟨t, pattern, .covariant⟩ : Goal)))
    (Nat.lt_trans Nat.zero_lt_one hdepth)
    (Nat.zero_lt_of_lt hcount)
  have hnew : ∀ f ∈ fs, (⟨f, pattern, .covariant⟩ : Goal) ∉ g.visiting := by
    intro f hf
    obtain ⟨m, _, hfunction⟩ := mem_right_of_forall₂ hall hf
    rw [hinside.visiting]
    intro h
    cases List.mem_singleton.mp h
    cases ht.symm.trans hfunction
  have hlimits : g.limits = limits := hinside.limits
  have hone : g.depth = 1 := hinside.depth
  have hcounted : g.iterations ≤ 1 := hcounted
  obtain ⟨s₁, hfold, hshows⟩ :=
    shows_acceptors (s := (Guarded.setGuard g (start limits), st)) ha hopens hne
    hall (fun _ => return false) room false (.refl st) (fun h => by cases h) hnew
    (show g.depth < g.limits.depth by rw [hone, hlimits]; exact hdepth)
    (show g.iterations + ms.length ≤ g.limits.iterations by rw [hlimits]; omega)
  have hstructure : Action.run (matchStructure (descend step (fun _ => return false) (room + 1))
      ⟨t, pattern, .covariant⟩ (.function p)) (Guarded.setGuard g (start limits), st) =
      (true, s₁) := by
    unfold matchStructure
    rw [Action.run_bind, run_getStore]
    simp only [hl, hlist]
    rw [hfold]
    simp [hfs]
  rw [hask, run_step_visit hdiffer hp (fun _ h => by cases h) (hopens.isTop ha.founded)
    (hplain .never)
    (hplain .any)]
  exact ⟨_, hbody _ _ _ hstructure, hshows.bound⟩

/-- What takes each of some types matches the open function, and the variable gathers them all. -/
theorem run_matchPattern_combines {t : TypeId} (h : st.Combines ms t) :
    (matchPattern t pattern limits).run st =
      let bound := (Bindings.bindAll .empty "R" ms .contravariant).run st
      (some bound.1, bound.2) := by
  have hshows : ∃ s', Action.run (ask limits ⟨t, pattern, .covariant⟩) (start limits, st) =
      (true, s') ∧
      (Bindings.bindAll .empty "R" ms .contravariant).run st = (s'.1.bindings, s'.2) := by
    cases h with
    | one h =>
      obtain ⟨room, hlimit⟩ : ∃ room, limits.depth = room + 1 := ⟨limits.depth - 1, by omega⟩
      have hscanned : (start limits).scanned.get? r ≠ some false := fun h => by cases h
      obtain ⟨s', hrun, hshows⟩ :=
        shows_acceptor (s := (start limits, st)) ha.founded hopens hscanned
        (fun _ => return false) room h (hne _ List.mem_cons_self) List.not_mem_nil
        (Nat.lt_trans Nat.zero_lt_one hdepth) (Nat.zero_lt_of_lt hcount)
      rw [ask, hlimit]
      exact ⟨s', hrun, hshows.bound⟩
    | several ht hfs hall => exact shows_intersection ha hopens hne hdepth hcount ht hfs hall
  obtain ⟨s', hrun, hbound⟩ := hshows
  have hmatch : (matchPattern t pattern limits).run st =
      let r := Action.run (ask limits ⟨t, pattern, .covariant⟩) (start limits, st)
      (if r.1 then some r.2.1.bindings else none, r.2.2) := rfl
  rw [hmatch, hrun, hbound]
  rfl

end Combined

end Matcher

end TypeCalculus
