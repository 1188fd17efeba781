import TypeCalculus.Proofs.Form
import TypeCalculus.Proofs.MatchClauses

namespace TypeCalculus

structure Probe where
  guard : Guard Goal
  scanned : Dict TypeId Bool := .empty

instance : Guarded Probe Goal := ⟨Probe.guard, fun guard p => { p with guard }⟩

abbrev ProbeM := StateT Probe StoreM

/-- From bindings to new bindings, or to nothing. -/
abbrev Trial := Bindings → ProbeM (Option Bindings)

namespace Trial

def succeed : Trial := fun bindings => return some bindings

def fail : Trial := fun _ => return none

def test (holds : Bool) : Trial := if holds then succeed else fail

def andThen (first second : Trial) : Trial := fun bindings => do
  match ← first bindings with
  | some found => second found
  | none => return none

def upon {α : Type} (act : ProbeM α) (trial : α → Trial) : Trial := fun bindings => do
  trial (← act) bindings

def every {α : Type} (trial : α → Trial) : List α → Trial
  | [] => succeed
  | x :: xs => (trial x).andThen (every trial xs)

def first {α : Type} (trial : α → Trial) : List α → Trial
  | [] => fail
  | x :: xs => fun bindings => do
    match ← trial x bindings with
    | some found => return some found
    | none => first trial xs bindings

def gather {α : Type} (trial : α → Trial) : List α → Trial
  | [] => fail
  | x :: xs => fun bindings => do
    match ← trial x bindings with
    | some found => return some ((← gather trial xs found).getD found)
    | none => gather trial xs bindings

def bound (name : String) (candidate : TypeId) (variance : Variance) : Trial := fun bindings =>
  return some (← bindings.bind name candidate variance)

def scan (t : TypeId) : ProbeM Bool := do
  match (← get).scanned.get? t with
  | some known => return known
  | none =>
    let answer := (← getThe Store).containsInfer t
    modify fun p => { p with scanned := p.scanned.insert t answer }
    return answer

section Step

variable (ask : Goal → Trial)

def parameter (subject pattern : TypeId) (variance : Variance) : Trial :=
  upon (scan pattern) fun found =>
    if found then ask ⟨subject, pattern, variance.flip⟩ else ask ⟨pattern, subject, variance.flip⟩

def field (subject : Shape) (variance : Variance) (wanted : Field) : Trial :=
  match subject.field? wanted.name with
  | none => test wanted.optional
  | some held =>
    if held.optional && !wanted.optional then fail else ask ⟨held.type, wanted.type, variance⟩

def shape (subject pattern : Shape) (variance : Variance) : Trial :=
  (every (field ask subject variance) pattern.fields).andThen
    (match pattern.index with
    | none => succeed
    | some index => every (fun t => ask ⟨t, index.type, variance⟩) subject.types)

def element (variance : Variance) (pair : Slot × Slot) : Trial :=
  if pair.1.rest || (pair.1.optional && !pair.2.optional) then fail
  else ask ⟨pair.1.type, pair.2.type, variance⟩

def tuple (subject pattern : List Slot) (variance : Variance) : Trial :=
  match pattern.getLast?.filter Slot.rest with
  | none =>
    if subject.any Slot.rest then fail
    else if subject.length < pattern.countP (!·.optional) then fail
    else if pattern.length < subject.length then fail
    else every (element ask variance) (subject.zip pattern)
  | some rest =>
    if subject.length < pattern.dropLast.length then fail
    else (every (element ask variance) (subject.zip pattern.dropLast)).andThen
      (upon (Matcher.remainder (subject.drop pattern.dropLast.length)) fun t =>
        ask ⟨t, rest.type, variance⟩)

def param (variance : Variance) (pair : Slot × Slot) : Trial :=
  upon (Matcher.elementType pair.1) fun t => parameter ask t pair.2.type variance

def params (subject pattern : List Slot) (variance : Variance) : Trial :=
  let fixed := pattern.takeWhile (!·.rest)
  match pattern.find? Slot.rest with
  | none =>
    if pattern.length < subject.countP (fun s => !s.optional && !s.rest) then fail
    else every (param ask variance) (subject.zip fixed)
  | some rest =>
    (every (param ask variance) (subject.zip fixed)).andThen
      (upon (Matcher.remainder (subject.drop fixed.length)) fun t =>
        parameter ask t rest.type variance)

def receiver (subject pattern : Signature) (variance : Variance) : Trial :=
  match pattern.receiver with
  | none => succeed
  | some wanted => parameter ask (subject.receiver.getD .unknown) wanted variance

def signature (subject pattern : Signature) (variance : Variance) : Trial :=
  (receiver ask subject pattern variance).andThen
    ((params ask subject.params pattern.params variance).andThen
      (ask ⟨subject.result, pattern.result, variance⟩))

def nodes (st : Store) (goal : Goal) (subject pattern : Node) : Trial :=
  match subject, pattern with
  | _, .intrinsic kind => test (Matcher.matchIntrinsic st goal.subject kind)
  | .object s, .object p => shape ask (st.shape s) (st.shape p) goal.variance
  | .array s, .array p => ask ⟨s, p, goal.variance⟩
  | .tuple s, .array p =>
    every (fun slot => upon (Matcher.elementType slot) fun t =>
      ask ⟨t, p, goal.variance⟩) (st.slots s)
  | .tuple s, .tuple p => tuple ask (st.slots s) (st.slots p) goal.variance
  | .wrapper s sargs, .wrapper p pargs =>
    if s.provides p then
      every (fun pair => ask ⟨pair.1, pair.2, goal.variance⟩) ((st.list sargs).zip (st.list pargs))
    else fail
  | .array s, .wrapper .iterable pargs =>
    match st.list pargs with
    | [] => succeed
    | p :: _ => ask ⟨s, p, goal.variance⟩
  | .function s, .function p => signature ask (st.signature s) (st.signature p) goal.variance
  | .constructor s, .constructor p => signature ask (st.signature s) (st.signature p) goal.variance
  | _, _ => fail

/-- A union pattern takes the bindings of its first member that is matched; an intersection subject
takes the bindings of those of its members that match. -/
def structural (goal : Goal) (pattern : Node) : Trial :=
  upon (getThe Store) fun st =>
    match st.lookup goal.subject, pattern with
    | none, _ => fail
    | some (.union members), _ => every (fun t => ask { goal with subject := t }) (st.list members)
    | some _, .union members => first (fun t => ask { goal with pattern := t }) (st.list members)
    | some _, .intersection members =>
      every (fun t => ask { goal with pattern := t }) (st.list members)
    | some (.intersection members), _ =>
      gather (fun t => ask { goal with subject := t }) (st.list members)
    | some subject, pattern => nodes ask st goal subject pattern

def anyBound (goal : Goal) : Trial :=
  upon (scan goal.pattern) fun found =>
    if found then
      upon (getThe Store) fun st =>
        every (fun name => bound name .any goal.variance) (st.inferVariables goal.pattern)
    else succeed

def step (goal : Goal) : Trial :=
  if goal.subject = goal.pattern then succeed
  else upon (getThe Store) fun st =>
    match st.lookup goal.pattern with
    | none => fail
    | some (.infer name) => bound name goal.subject goal.variance
    | some pattern =>
      if goal.pattern.isTop || goal.subject = .never then succeed
      else if goal.subject = .any then anyBound goal
      else fun bindings => visit goal (some bindings) none (structural ask goal pattern bindings)

end Step

def run (limits : Limits) (subject pattern : TypeId) : StoreM (Option Bindings) :=
  Prod.fst <$> (descend step (fun _ => fail) limits.depth ⟨subject, pattern, .covariant⟩
    .empty).run { guard := .start limits }

end Trial

namespace Matcher

def probe (m : Matcher) : Probe := ⟨m.guard, m.scanned⟩

def report (r : Bool × State) : Option Bindings × Probe × Store :=
  (if r.1 then some r.2.1.bindings else none, r.2.1.probe, r.2.2)

/-- The action succeeds where the trial does, with the bindings that the trial finds, and both leave
the same store behind. -/
def Mirrors (act : MatchM Bool) (trial : Trial) : Prop :=
  ∀ s : State, Action.run (trial s.1.bindings) (s.1.probe, s.2) = report (Action.run act s)

def Parallel {α : Type} (act : MatchM α) (act' : ProbeM α) : Prop :=
  ∀ s : State, (Action.run act s).2.1.bindings = s.1.bindings ∧
    Action.run act' (s.1.probe, s.2) =
      ((Action.run act s).1, (Action.run act s).2.1.probe, (Action.run act s).2.2)

section Combinators

variable {α : Type} {act act' : MatchM Bool} {trial trial' : Trial}

theorem mirrors_test (holds : Bool) : Mirrors (return holds) (.test holds) := by
  intro s
  cases holds <;> rfl

theorem mirrors_succeed : Mirrors (return true) .succeed := mirrors_test true

theorem mirrors_fail : Mirrors (return false) .fail := mirrors_test false

theorem mirrors_ite {c : Prop} [Decidable c] (h : Mirrors act trial) (h' : Mirrors act' trial') :
    Mirrors (if c then act else act') (if c then trial else trial') := by
  split
  · exact h
  · exact h'

/-- Unless something speaks against it. -/
theorem Mirrors.barring {c : Prop} [Decidable c] (h : Mirrors act trial) :
    Mirrors (if c then return false else act) (if c then .fail else trial) :=
  mirrors_ite mirrors_fail h

/-- Where the first one fails its bindings remain, but the failure is passed on. -/
theorem Mirrors.andThen (h : Mirrors act trial) (h' : Mirrors act' trial') :
    Mirrors (do if ← act then act' else return false) (trial.andThen trial') := by
  intro s
  unfold Trial.andThen
  rw [Action.run_bind, h s, Action.run_bind]
  rcases Action.run act s with ⟨_ | _, s'⟩
  · rfl
  · exact h' s'

/-- An action that leaves the bindings alone may come first. -/
theorem Mirrors.upon {x : MatchM α} {x' : ProbeM α} {f : α → MatchM Bool} {g : α → Trial}
    (hx : Parallel x x') (hf : ∀ a, Mirrors (f a) (g a)) : Mirrors (x >>= f) (.upon x' g) := by
  intro s
  obtain ⟨hbindings, hrun⟩ := hx s
  unfold Trial.upon
  rw [Action.run_bind, hrun, Action.run_bind, ← hbindings]
  exact hf _ (Action.run x s).2

theorem mirrors_allM {f : α → MatchM Bool} {g : α → Trial} (h : ∀ x, Mirrors (f x) (g x))
    (xs : List α) :
    Mirrors (xs.allM f) (.every g xs) := by
  induction xs with
  | nil => exact mirrors_succeed
  | cons x xs ih =>
    have hcons : (x :: xs).allM f = do if ← f x then xs.allM f else return false := by
      show (f x >>= _) = (f x >>= _)
      congr 1
      funext b
      cases b <;> rfl
    rw [hcons]
    exact (h x).andThen ih

/-- An attempt that fails ends with the bindings that it began with. -/
theorem Mirrors.attempt (h : Mirrors act trial) :
    Mirrors (Matcher.attempt act) trial ∧
      ∀ s : State, (Action.run (Matcher.attempt act) s).1 = false →
        (Action.run (Matcher.attempt act) s).2.1.bindings = s.1.bindings := by
  constructor
  · intro s
    rw [run_attempt, h s]
    rcases Action.run act s with ⟨_ | _, s'⟩ <;> rfl
  · intro s
    rw [run_attempt]
    rcases Action.run act s with ⟨_ | _, s'⟩
    · exact fun _ => rfl
    · exact fun h => by cases h

/-- The first member that matches is found with the bindings from before the others. -/
theorem mirrors_anyM {f : α → MatchM Bool} {g : α → Trial} (h : ∀ x, Mirrors (f x) (g x))
    (xs : List α) :
    Mirrors (xs.anyM fun x => Matcher.attempt (f x)) (.first g xs) := by
  induction xs with
  | nil => exact mirrors_fail
  | cons x xs ih =>
    intro s
    obtain ⟨hrun, hback⟩ := (h x).attempt
    show Action.run (g x s.1.bindings >>= _) (s.1.probe, s.2) =
      report (Action.run (Matcher.attempt (f x) >>= _) s)
    rw [Action.run_bind, hrun s, Action.run_bind]
    have hback := hback s
    generalize Action.run (Matcher.attempt (f x)) s = r at hback
    obtain ⟨_ | _, s'⟩ := r
    · have hbindings : s'.1.bindings = s.1.bindings := hback rfl
      rw [← hbindings]
      exact ih s'
    · rfl

/-- Once a member has matched, the others add to its bindings what they find. -/
theorem mirrors_foldlM {f : α → MatchM Bool} {g : α → Trial} (h : ∀ x, Mirrors (f x) (g x))
    (xs : List α) (matched : Bool) :
    Mirrors (xs.foldlM (fun matched x => do
        if ← Matcher.attempt (f x) then return true else return matched) matched)
      fun bindings => do
        let found ← Trial.gather g xs bindings
        return if matched then some (found.getD bindings) else found := by
  induction xs generalizing matched with
  | nil =>
    intro s
    cases matched <;> rfl
  | cons x xs ih =>
    intro s
    obtain ⟨hrun, hback⟩ := (h x).attempt
    rw [List.foldlM_cons, Action.run_bind, Action.run_bind, Action.run_bind]
    rw [show Trial.gather g (x :: xs) s.1.bindings = g x s.1.bindings >>= _ from rfl]
    rw [Action.run_bind, hrun s]
    have hback := hback s
    generalize Action.run (Matcher.attempt (f x)) s = r at hback
    obtain ⟨_ | _, s'⟩ := r
    · have hbindings : s'.1.bindings = s.1.bindings := hback rfl
      have hrest := ih matched s'
      rw [hbindings] at hrest
      exact hrest
    · have hrest := ih true s'
      cases matched <;> exact hrest

/-- A visit that is under way succeeds with the bindings that it is asked for with. -/
theorem mirrors_visit (goal : Goal) (h : Mirrors act trial) :
    Mirrors (visit goal true false act) fun bindings =>
    visit goal (some bindings) none (trial bindings) := by
  intro s
  rw [run_visit, run_visit]
  have hguard : Guarded.guard s.1.probe = Guarded.guard s.1 := rfl
  simp only [hguard]
  rcases (Guarded.guard s.1).enter goal with ⟨admission, g⟩
  cases admission with
  | entered =>
    have hbody := h (Guarded.setGuard g s.1, s.2)
    dsimp only
    rw [show Action.run (trial s.1.bindings) (Guarded.setGuard g s.1.probe, s.2) = _ from hbody]
    rcases Action.run act (Guarded.setGuard g s.1, s.2) with ⟨_ | _, s'⟩ <;> rfl
  | _ => rfl

end Combinators

section Actions

theorem parallel_store {α : Type} (x : StoreM α) : Parallel (liftM x) (liftM x) :=
  fun _ => ⟨rfl, rfl⟩

theorem parallel_getStore : Parallel (getThe Store) (getThe Store) := fun _ => ⟨rfl, rfl⟩

/-- What was scanned is remembered after a failure, too. -/
theorem parallel_scan (t : TypeId) : Parallel (containsInfer t) (Trial.scan t) := by
  intro s
  have hget : Action.run (get : MatchM Matcher) s = (s.1, s) := rfl
  have hget' : Action.run (get : ProbeM Probe) (s.1.probe, s.2) = (s.1.probe, s.1.probe, s.2) := rfl
  have hsame : s.1.probe.scanned = s.1.scanned := rfl
  unfold containsInfer Trial.scan
  rw [Action.run_bind, Action.run_bind, hget, hget']
  dsimp only
  rw [hsame]
  cases s.1.scanned.get? t <;> exact ⟨rfl, rfl⟩

theorem mirrors_bind (name : String) (candidate : TypeId) (variance : Variance) :
    Mirrors (do bind name candidate variance; return true) (.bound name candidate variance) :=
  fun _ => rfl

theorem mirrors_forM {α : Type} {f : α → MatchM PUnit} {g : α → Trial}
    (h : ∀ x, Mirrors (do f x; return true) (g x)) (xs : List α) :
    Mirrors (do xs.forM f; return true) (.every g xs) := by
  induction xs with
  | nil => exact mirrors_succeed
  | cons x xs ih =>
    intro s
    have hx := h x s
    show Action.run (g x s.1.bindings >>= _) (s.1.probe, s.2) = _
    rw [Action.run_bind, hx]
    exact ih (Action.run (f x) s).2

end Actions

section Step

variable {ask : Goal → MatchM Bool} {ask' : Goal → Trial}
  (hask : ∀ goal, Mirrors (ask goal) (ask' goal))

include hask

theorem mirrors_parameter (subject pattern : TypeId) (variance : Variance) :
    Mirrors (askParameter ask subject pattern variance)
      (.parameter ask' subject pattern variance) := by
  apply Mirrors.upon (parallel_scan pattern)
  intro found
  cases found <;> exact hask _

theorem mirrors_field (subject : Shape) (variance : Variance) (wanted : Field) :
    Mirrors (matchField ask subject variance wanted) (.field ask' subject variance wanted) := by
  unfold matchField Trial.field
  cases subject.field? wanted.name with
  | none => exact mirrors_test _
  | some held => exact (hask _).barring

theorem mirrors_shape (subject pattern : Shape) (variance : Variance) :
    Mirrors (matchShape ask subject pattern variance) (.shape ask' subject pattern variance) := by
  unfold matchShape Trial.shape
  apply (mirrors_allM (mirrors_field hask subject variance) pattern.fields).andThen
  cases pattern.index with
  | none => exact mirrors_succeed
  | some index => exact mirrors_allM (fun t => hask _) subject.types

theorem mirrors_element (variance : Variance) (pair : Slot × Slot) :
    Mirrors (matchElement ask variance pair.1 pair.2) (.element ask' variance pair) :=
  (hask _).barring

theorem mirrors_tuple (subject pattern : List Slot) (variance : Variance) :
    Mirrors (matchTuple ask subject pattern variance) (.tuple ask' subject pattern variance) := by
  have helements (fixed : List Slot) :=
    mirrors_allM (mirrors_element hask variance) (subject.zip fixed)
  unfold matchTuple Trial.tuple
  cases pattern.getLast?.filter Slot.rest with
  | none => exact (helements pattern).barring.barring.barring
  | some rest =>
    apply Mirrors.barring
    apply (helements pattern.dropLast).andThen
    exact .upon (parallel_store _) fun t => hask _

theorem mirrors_param (variance : Variance) (pair : Slot × Slot) :
    Mirrors (matchParam ask variance pair.1 pair.2) (.param ask' variance pair) :=
  .upon (parallel_store _) fun t => mirrors_parameter hask t pair.2.type variance

theorem mirrors_params (subject pattern : List Slot) (variance : Variance) :
    Mirrors (matchParams ask subject pattern variance) (.params ask' subject pattern variance) := by
  have hparams := mirrors_allM (mirrors_param hask variance)
    (subject.zip (pattern.takeWhile (!·.rest)))
  unfold matchParams Trial.params
  cases pattern.find? Slot.rest with
  | none => exact hparams.barring
  | some rest =>
    apply hparams.andThen
    exact .upon (parallel_store _) fun t => mirrors_parameter hask t rest.type variance

theorem mirrors_receiver (subject pattern : Signature) (variance : Variance) :
    Mirrors (matchReceiver ask subject pattern variance)
      (.receiver ask' subject pattern variance) := by
  unfold matchReceiver Trial.receiver
  cases pattern.receiver with
  | none => exact mirrors_succeed
  | some wanted => exact mirrors_parameter hask _ wanted variance

theorem mirrors_signature (subject pattern : Signature) (variance : Variance) :
    Mirrors (matchSignature ask subject pattern variance)
      (.signature ask' subject pattern variance) := by
  apply (mirrors_receiver hask subject pattern variance).andThen
  apply (mirrors_params hask subject.params pattern.params variance).andThen
  exact hask _

theorem mirrors_nodes (st : Store) (goal : Goal) (subject pattern : Node) :
    Mirrors (matchNodes ask st goal subject pattern) (.nodes ask' st goal subject pattern) := by
  cases pattern with
  | intrinsic kind => cases subject <;> exact mirrors_test _
  | object p =>
    cases subject with
    | object s => exact mirrors_shape hask _ _ goal.variance
    | _ => exact mirrors_fail
  | array p =>
    cases subject with
    | array s => exact hask _
    | tuple s =>
      apply mirrors_allM
      exact fun slot => .upon (parallel_store _) fun t => hask _
    | _ => exact mirrors_fail
  | tuple p =>
    cases subject with
    | tuple s => exact mirrors_tuple hask _ _ goal.variance
    | _ => exact mirrors_fail
  | wrapper kind args =>
    cases subject with
    | wrapper other sargs =>
      have hargs := mirrors_allM (fun pair => hask ⟨pair.1, pair.2, goal.variance⟩)
        ((st.list sargs).zip (st.list args))
      exact mirrors_ite hargs mirrors_fail
    | array s =>
      cases kind with
      | iterable =>
        simp only [matchNodes, Trial.nodes]
        cases st.list args with
        | nil => exact mirrors_succeed
        | cons p rest => exact hask _
      | _ => exact mirrors_fail
    | _ => exact mirrors_fail
  | function p =>
    cases subject with
    | function s => exact mirrors_signature hask _ _ goal.variance
    | _ => exact mirrors_fail
  | constructor p =>
    cases subject with
    | constructor s => exact mirrors_signature hask _ _ goal.variance
    | _ => exact mirrors_fail
  | _ => cases subject <;> exact mirrors_fail

/-- One level of matching, clause by clause. -/
theorem mirrors_structural (goal : Goal) (pattern : Node) :
    Mirrors (matchStructure ask goal pattern) (.structural ask' goal pattern) := by
  apply Mirrors.upon parallel_getStore
  intro st
  cases st.lookup goal.subject with
  | none => exact mirrors_fail
  | some subject =>
    have hunion (members : ListId) :=
      mirrors_anyM (fun t => hask { goal with pattern := t }) (st.list members)
    have hintersection (members : ListId) :=
      mirrors_allM (fun t => hask { goal with pattern := t }) (st.list members)
    have hnodes := mirrors_nodes hask st goal subject pattern
    cases subject with
    | union members => exact mirrors_allM (fun t => hask { goal with subject := t }) _
    | intersection members =>
      cases pattern with
      | union members => exact hunion members
      | intersection members => exact hintersection members
      | _ => exact mirrors_foldlM (fun t => hask { goal with subject := t }) _ false
    | _ =>
      cases pattern with
      | union members => exact hunion members
      | intersection members => exact hintersection members
      | _ => exact hnodes

omit hask in
theorem mirrors_anyBound (goal : Goal) :
    Mirrors (do bindAny goal; return true) (.anyBound goal) := by
  unfold bindAny Trial.anyBound
  rw [bind_assoc]
  apply Mirrors.upon (parallel_scan goal.pattern)
  intro found
  cases found with
  | false => exact mirrors_succeed
  | true =>
    simp only [if_true]
    rw [bind_assoc]
    apply Mirrors.upon parallel_getStore
    intro st
    exact mirrors_forM (fun name => mirrors_bind name .any goal.variance) _

/-- One level of the walk, if the level below does the same. -/
theorem mirrors_step (goal : Goal) : Mirrors (step ask goal) (.step ask' goal) := by
  unfold step Trial.step
  split
  · exact mirrors_succeed
  · apply Mirrors.upon parallel_getStore
    intro st
    cases st.lookup goal.pattern with
    | none => exact mirrors_fail
    | some pattern =>
      have hvisit := mirrors_visit goal (mirrors_structural hask goal pattern)
      have hany := mirrors_anyBound goal
      cases pattern with
      | infer name => exact mirrors_bind name goal.subject goal.variance
      | _ => exact mirrors_ite mirrors_succeed (mirrors_ite hany hvisit)

end Step

end Matcher

/-- Failed alternatives leave no bindings: the matcher finds what the trials find. -/
theorem matchPattern_eq_trial (subject pattern : TypeId) (limits : Limits) :
    matchPattern subject pattern limits = Trial.run limits subject pattern := by
  have hall : ∀ room goal, Matcher.Mirrors (descend Matcher.step (fun _ => return false) room goal)
      (descend Trial.step (fun _ => .fail) room goal) := by
    intro room
    induction room with
    | zero => exact Matcher.mirrors_step fun _ => Matcher.mirrors_fail
    | succ room ih => exact Matcher.mirrors_step ih
  funext st
  have hrun := hall limits.depth ⟨subject, pattern, .covariant⟩ (.start limits, st)
  exact congrArg (fun r : Option Bindings × Probe × Store => (r.1, r.2.2)) hrun.symm

end TypeCalculus
