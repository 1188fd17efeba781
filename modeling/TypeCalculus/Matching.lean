import TypeCalculus.Bindings
import TypeCalculus.Descent
import TypeCalculus.Store.Build
import TypeCalculus.Store.Reach

namespace TypeCalculus

/-- Does the subject match the pattern? The variance says how infer variables combine candidates. -/
structure Goal where
  subject : TypeId
  pattern : TypeId
  variance : Variance
deriving DecidableEq, Repr

structure Matcher where
  guard : Guard Goal
  bindings : Bindings := .empty
  /-- Which patterns were found to contain an infer variable. -/
  scanned : Dict TypeId Bool := .empty
deriving Repr

instance : Guarded Matcher Goal := ⟨Matcher.guard, fun guard s => { s with guard }⟩

abbrev MatchM := StateT Matcher StoreM

namespace Matcher

def start (limits : Limits) : Matcher := { guard := .start limits }

def bind (name : String) (candidate : TypeId) (variance : Variance) : MatchM Unit := do
  let bindings ← (← get).bindings.bind name candidate variance
  modify fun s => { s with bindings }

def containsInfer (t : TypeId) : MatchM Bool := do
  match (← get).scanned.get? t with
  | some known => return known
  | none =>
    let answer := (← getThe Store).containsInfer t
    modify fun s => { s with scanned := s.scanned.insert t answer }
    return answer

/-- A failed attempt leaves no bindings behind. -/
def attempt (action : MatchM Bool) : MatchM Bool := do
  let before := (← get).bindings
  if ← action then return true
  modify fun s => { s with bindings := before }
  return false

/-- What a slot contributes to a sequence of values: a rest slot stands for its elements. -/
def elementType (slot : Slot) : StoreM TypeId := do
  let st ← get
  if !slot.rest then return slot.type
  match st.lookup slot.type with
  | some (.array element) => return element
  | some (.tuple elements) => Store.mkUnion ((st.slots elements).map Slot.type)
  | _ => return slot.type

/-- The type of the slots that a rest slot of the pattern takes together. -/
def remainder (slots : List Slot) : StoreM TypeId :=
  match slots with
  | [only] => if only.rest then return only.type else Store.mkTuple slots
  | _ => Store.mkTuple slots

section Step

variable (ask : Goal → MatchM Bool)

/-- Values flow into parameters, so the two sides change places. They stay where they are when the
pattern has variables to bind. -/
def askParameter (subject pattern : TypeId) (variance : Variance) : MatchM Bool := do
  if ← containsInfer pattern then ask ⟨subject, pattern, variance.flip⟩
  else ask ⟨pattern, subject, variance.flip⟩

def matchIntrinsic (st : Store) (subject : TypeId) (kind : Intrinsic) : Bool :=
  match kind with
  | .object => st.isObjectLike subject
  | .void => subject = .undefined
  | _ => match st.lookup subject with
    | some (.literal value) => value.primitive = kind.id
    | _ => false

def matchField (subject : Shape) (variance : Variance) (wanted : Field) : MatchM Bool :=
  match subject.field? wanted.name with
  | none => return wanted.optional
  | some field =>
    if field.optional && !wanted.optional then return false
    else ask ⟨field.type, wanted.type, variance⟩

/-- An index signature in the pattern speaks about everything that the subject holds. -/
def matchShape (subject pattern : Shape) (variance : Variance) : MatchM Bool := do
  if ← pattern.fields.allM (matchField ask subject variance) then
    match pattern.index with
    | none => return true
    | some index =>
      let held := subject.fields.map Field.type ++ subject.index.toList.map IndexSignature.type
      held.allM fun t => ask ⟨t, index.type, variance⟩
  else return false

def matchElement (variance : Variance) (subject pattern : Slot) : MatchM Bool :=
  if subject.rest || (subject.optional && !pattern.optional) then return false
  else ask ⟨subject.type, pattern.type, variance⟩

/-- A rest slot counts only at the end of the pattern, where it takes all that is left. -/
def matchTuple (subject pattern : List Slot) (variance : Variance) : MatchM Bool := do
  match pattern.getLast?.filter Slot.rest with
  | none =>
    if subject.any Slot.rest then return false
    else if subject.length < pattern.countP (!·.optional) then return false
    else if pattern.length < subject.length then return false
    else (subject.zip pattern).allM fun (s, p) => matchElement ask variance s p
  | some rest =>
    let fixed := pattern.dropLast
    if subject.length < fixed.length then return false
    else if ← (subject.zip fixed).allM (fun (s, p) => matchElement ask variance s p) then
      ask ⟨← remainder (subject.drop fixed.length), rest.type, variance⟩
    else return false

def matchParam (variance : Variance) (subject pattern : Slot) : MatchM Bool := do
  askParameter ask (← elementType subject) pattern.type variance

/-- The subject may take fewer arguments than the pattern passes, but not demand more. -/
def matchParams (subject pattern : List Slot) (variance : Variance) : MatchM Bool := do
  let fixed := pattern.takeWhile (!·.rest)
  match pattern.find? Slot.rest with
  | none =>
    if pattern.length < subject.countP (fun s => !s.optional && !s.rest) then return false
    else (subject.zip fixed).allM fun (s, p) => matchParam ask variance s p
  | some rest =>
    if ← (subject.zip fixed).allM (fun (s, p) => matchParam ask variance s p) then
      askParameter ask (← remainder (subject.drop fixed.length)) rest.type variance
    else return false

def matchReceiver (subject pattern : Signature) (variance : Variance) : MatchM Bool :=
  match pattern.receiver with
  | none => return true
  | some wanted => askParameter ask (subject.receiver.getD .unknown) wanted variance

def matchSignature (subject pattern : Signature) (variance : Variance) : MatchM Bool := do
  if ← matchReceiver ask subject pattern variance then
    if ← matchParams ask subject.params pattern.params variance then
      ask ⟨subject.result, pattern.result, variance⟩
    else return false
  else return false

/-- The clause for two nodes neither of which is a union or an intersection. -/
def matchNodes (st : Store) (goal : Goal) (subject pattern : Node) : MatchM Bool :=
  match subject, pattern with
  | _, .intrinsic kind => return matchIntrinsic st goal.subject kind
  | .object s, .object p => matchShape ask (st.shape s) (st.shape p) goal.variance
  | .array s, .array p => ask ⟨s, p, goal.variance⟩
  | .tuple s, .array p =>
    (st.slots s).allM fun slot => do ask ⟨← elementType slot, p, goal.variance⟩
  | .tuple s, .tuple p => matchTuple ask (st.slots s) (st.slots p) goal.variance
  | .wrapper s sargs, .wrapper p pargs =>
    if s.provides p then
      ((st.list sargs).zip (st.list pargs)).allM fun (s, p) => ask ⟨s, p, goal.variance⟩
    else return false
  | .array s, .wrapper .iterable pargs =>
    match st.list pargs with
    | [] => return true
    | p :: _ => ask ⟨s, p, goal.variance⟩
  | .function s, .function p =>
    matchSignature ask (st.signature s) (st.signature p) goal.variance
  | .constructor s, .constructor p =>
    matchSignature ask (st.signature s) (st.signature p) goal.variance
  | _, _ => return false

/-- A union subject needs all its members to match, a union pattern one of its own to be matched;
an intersection pattern needs all its members matched, an intersection subject one that matches. -/
def matchStructure (goal : Goal) (pattern : Node) : MatchM Bool := do
  let st ← getThe Store
  match st.lookup goal.subject, pattern with
  | none, _ => return false
  | some (.union members), _ =>
    (st.list members).allM fun t => ask { goal with subject := t }
  | some _, .union members =>
    (st.list members).anyM fun t => attempt (ask { goal with pattern := t })
  | some _, .intersection members =>
    (st.list members).allM fun t => ask { goal with pattern := t }
  | some (.intersection members), _ =>
    (st.list members).foldlM (fun matched t => do
      if ← attempt (ask { goal with subject := t }) then return true else return matched) false
  | some subject, pattern => matchNodes ask st goal subject pattern

/-- An `any` subject shows every variable under the pattern an `any`. -/
def bindAny (goal : Goal) : MatchM Unit := do
  if ← containsInfer goal.pattern then
    ((← getThe Store).inferVariables goal.pattern).forM fun name => bind name .any goal.variance

def step (goal : Goal) : MatchM Bool := do
  if goal.subject = goal.pattern then return true
  match (← getThe Store).lookup goal.pattern with
  | none => return false
  | some (.infer name) =>
    bind name goal.subject goal.variance
    return true
  | some pattern =>
    if goal.pattern.isTop || goal.subject = .never then return true
    if goal.subject = .any then
      bindAny goal
      return true
    visit goal true false (matchStructure ask goal pattern)

end Step

/-- Answers a goal in a state whose guard is not inside any visit. -/
def ask (limits : Limits) (goal : Goal) : MatchM Bool :=
  descend step (fun _ => return false) limits.depth goal

/-- Matches and returns the final state of the matcher with the answer. -/
def run (limits : Limits) (subject pattern : TypeId) : StoreM (Bool × Matcher) :=
  (ask limits ⟨subject, pattern, .covariant⟩).run (start limits)

end Matcher

/-- The bindings under which the subject matches the pattern, if it does. -/
def matchPattern (subject pattern : TypeId) (limits : Limits := .matching) :
    StoreM (Option Bindings) := do
  let (matched, final) ← Matcher.run limits subject pattern
  return if matched then some final.bindings else none

def isAssignable (subject target : TypeId) : StoreM Bool :=
  return (← matchPattern subject target).isSome

end TypeCalculus
