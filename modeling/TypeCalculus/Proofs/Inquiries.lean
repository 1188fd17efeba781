import TypeCalculus.Matching
import TypeCalculus.Proofs.Actions
import TypeCalculus.Proofs.Form

namespace TypeCalculus

namespace Matcher

/-- What is asked about: the subject as a whole, a part of it, what a slot contributes to a
sequence, or what several slots come to together. -/
inductive Operand
  | whole
  | part (t : TypeId)
  | element (slot : Slot)
  | rest (slots : List Slot)

def Operand.fetch (subject : TypeId) : Operand → StoreM TypeId
  | .whole => return subject
  | .part t => return t
  | .element slot => elementType slot
  | .rest slots => remainder slots

/-- A question about a part of the pattern or, if there is none, about the pattern as a whole. -/
structure Question where
  operand : Operand
  against : Option TypeId
  /-- Values flow into the part. -/
  inward : Bool := false

inductive Check
  | settled (holds : Bool)
  | asked (question : Question)

/-- What one level of matching comes down to: checks that all have to pass, or members of the
pattern or of the subject of which one has to match. -/
inductive Inquiry
  | all (checks : List Check)
  | first (members : List TypeId)
  | each (members : List TypeId)

section Run

variable (ask : Goal → MatchM Bool) (goal : Goal)

def Question.put (q : Question) (t : TypeId) : MatchM Bool :=
  if q.inward then askParameter ask t (q.against.getD goal.pattern) goal.variance
  else ask ⟨t, q.against.getD goal.pattern, goal.variance⟩

def Question.run (q : Question) : MatchM Bool := do
  q.put ask goal (← q.operand.fetch goal.subject)

def Check.run : Check → MatchM Bool
  | .settled holds => return holds
  | .asked question => question.run ask goal

def Inquiry.run : Inquiry → MatchM Bool
  | .all checks => checks.allM (Check.run ask goal)
  | .first members => members.anyM fun t => attempt (ask { goal with pattern := t })
  | .each members => members.foldlM (fun matched t => do
      if ← attempt (ask { goal with subject := t }) then return true else return matched) false

end Run

end Matcher

open Matcher

namespace Form

def lies (subject : TypeId) : Form → Intrinsic → Bool
  | .object _, .object | .array _, .object | .tuple _, .object | .function _, .object
  | .constructor _, .object | .wrapper _ _, .object => true
  | _, .object => subject = .object
  | _, .void => subject = .undefined
  | .literal value, kind => value.primitive = kind.id
  | _, _ => false

def fieldCheck (subject : Shape) (wanted : Field) : Check :=
  match subject.field? wanted.name with
  | none => .settled wanted.optional
  | some field =>
    if field.optional && !wanted.optional then .settled false
    else .asked ⟨.part field.type, some wanted.type, false⟩

def shapeChecks (subject pattern : Shape) : List Check :=
  pattern.fields.map (fieldCheck subject) ++ pattern.index.toList.flatMap fun index =>
    subject.types.map fun t => .asked ⟨.part t, some index.type, false⟩

def elementCheck (pair : Slot × Slot) : Check :=
  if pair.1.rest || (pair.1.optional && !pair.2.optional) then .settled false
  else .asked ⟨.part pair.1.type, some pair.2.type, false⟩

def tupleChecks (subject pattern : List Slot) : List Check :=
  match pattern.getLast?.filter Slot.rest with
  | none =>
    if subject.any Slot.rest then [.settled false]
    else if subject.length < pattern.countP (!·.optional) then [.settled false]
    else if pattern.length < subject.length then [.settled false]
    else (subject.zip pattern).map elementCheck
  | some rest =>
    if subject.length < pattern.dropLast.length then [.settled false]
    else (subject.zip pattern.dropLast).map elementCheck ++
      [.asked ⟨.rest (subject.drop pattern.dropLast.length), some rest.type, false⟩]

def paramCheck (pair : Slot × Slot) : Check :=
  .asked ⟨.element pair.1, some pair.2.type, true⟩

def paramChecks (subject pattern : List Slot) : List Check :=
  let fixed := pattern.takeWhile (!·.rest)
  match pattern.find? Slot.rest with
  | none =>
    if pattern.length < subject.countP (fun s => !s.optional && !s.rest) then [.settled false]
    else (subject.zip fixed).map paramCheck
  | some rest =>
    (subject.zip fixed).map paramCheck ++
      [.asked ⟨.rest (subject.drop fixed.length), some rest.type, true⟩]

def signatureChecks (subject pattern : Signature) : List Check :=
  pattern.receiver.toList.map
      (fun wanted => .asked ⟨.part (subject.receiver.getD .unknown), some wanted, true⟩) ++
    (paramChecks subject.params pattern.params ++
      [.asked ⟨.part subject.result, some pattern.result, false⟩])

def checks (subject : TypeId) : Form → Form → List Check
  | f, .intrinsic kind => [.settled (f.lies subject kind)]
  | .object a, .object b => shapeChecks a b
  | .array a, .array b => [.asked ⟨.part a, some b, false⟩]
  | .tuple as, .array b => as.map fun slot => .asked ⟨.element slot, some b, false⟩
  | .tuple as, .tuple bs => tupleChecks as bs
  | .wrapper k as, .wrapper l bs =>
    if k.provides l then
      (as.zip bs).map fun pair => .asked ⟨.part pair.1, some pair.2, false⟩
    else [.settled false]
  | .array a, .wrapper .iterable bs =>
    bs.head?.toList.map fun b => .asked ⟨.part a, some b, false⟩
  | .function a, .function b => signatureChecks a b
  | .constructor a, .constructor b => signatureChecks a b
  | _, _ => [.settled false]

def inquiry (subject : TypeId) : Form → Form → Inquiry
  | .union ms, _ => .all (ms.map fun t => .asked ⟨.part t, none, false⟩)
  | _, .union ms => .first ms
  | _, .intersection ms => .all (ms.map fun t => .asked ⟨.whole, some t, false⟩)
  | .intersection ms, _ => .each ms
  | f, g => .all (checks subject f g)

end Form

namespace Store

def inquiry (st : Store) (subject : TypeId) (pattern : Form) : Inquiry :=
  match st.form? subject with
  | none => .all [.settled false]
  | some form => form.inquiry subject pattern

end Store

namespace Matcher

def Operand.Of (f : Form) : Operand → Prop
  | .whole => True
  | .part t => t ∈ f.mentions ∨ t = .unknown
  | .element slot => slot ∈ f.slots
  | .rest slots => ∃ n, slots = f.slots.drop n

structure Question.Between (f g : Form) (q : Question) : Prop where
  operand : q.operand.Of f
  against {b : TypeId} : q.against = some b → b ∈ g.mentions
  member : q.against = none → ∃ ms, f = .union ms ∧ ∃ m ∈ ms, q.operand = .part m
  rest {slots : List Slot} : q.operand = .rest slots →
    ∃ slot ∈ g.slots, slot.rest = true ∧ q.against = some slot.type
  inward : q.inward = true → ∃ sig, g = .function sig ∨ g = .constructor sig

def Check.Between (f g : Form) : Check → Prop
  | .settled _ => True
  | .asked q => q.Between f g

def Inquiry.Between (f g : Form) : Inquiry → Prop
  | .all checks => ∀ check ∈ checks, check.Between f g
  | .first members => g = .union members
  | .each members => f = .intersection members

variable {f g : Form} {a b : TypeId}

theorem Check.between_part (ha : a ∈ f.mentions) (hb : b ∈ g.mentions) :
    (Check.asked ⟨.part a, some b, false⟩).Between f g where
  operand := .inl ha
  against h := Option.some.inj h ▸ hb
  member h := by cases h
  rest h := by cases h
  inward h := by cases h

theorem Check.between_element {slot : Slot} {inward : Bool} (ha : slot ∈ f.slots)
    (hb : b ∈ g.mentions) (hi : inward = true → ∃ sig, g = .function sig ∨ g = .constructor sig) :
    (Check.asked ⟨.element slot, some b, inward⟩).Between f g where
  operand := ha
  against h := Option.some.inj h ▸ hb
  member h := by cases h
  rest h := by cases h
  inward := hi

theorem Check.between_rest {n : Nat} {slot : Slot} {inward : Bool} (hb : slot ∈ g.slots)
    (hr : slot.rest = true) (hi : inward = true → ∃ sig, g = .function sig ∨ g = .constructor sig) :
    (Check.asked ⟨.rest (f.slots.drop n), some slot.type, inward⟩).Between f g where
  operand := ⟨n, rfl⟩
  against h := Option.some.inj h ▸ Form.slot_mentioned hb
  member h := by cases h
  rest _ := ⟨slot, hb, hr, rfl⟩
  inward := hi

end Matcher

namespace Form

variable {f g : Form} {check : Check}

theorem between_refused (h : check ∈ [Check.settled false]) : check.Between f g := by
  cases List.mem_singleton.mp h
  trivial

theorem between_shapeChecks {a b : Shape} (h : check ∈ shapeChecks a b) :
    check.Between (.object a) (.object b) := by
  have hfield {field : Field} {shape : Shape} (hm : field ∈ shape.fields) :
      field.type ∈ (object shape).mentions := by
    simp only [mentions, Shape.types, List.mem_append, List.mem_map]
    exact .inl ⟨field, hm, rfl⟩
  unfold shapeChecks at h
  rcases List.mem_append.mp h with h | h
  · obtain ⟨wanted, hw, rfl⟩ := List.mem_map.mp h
    unfold fieldCheck
    split
    · trivial
    · rename_i field hf
      split
      · trivial
      · exact Check.between_part (hfield (List.mem_of_find?_eq_some hf)) (hfield hw)
  · obtain ⟨index, hi, h⟩ := List.mem_flatMap.mp h
    obtain ⟨t, ht, rfl⟩ := List.mem_map.mp h
    refine Check.between_part ht ?_
    simp [mentions, Shape.types, Option.mem_toList.mp hi]

theorem between_elementChecks {as bs cs : List Slot} (hc : cs ⊆ bs)
    (h : check ∈ (as.zip cs).map elementCheck) : check.Between (.tuple as) (.tuple bs) := by
  obtain ⟨pair, hp, rfl⟩ := List.mem_map.mp h
  obtain ⟨h₁, h₂⟩ := List.of_mem_zip hp
  unfold elementCheck
  split
  · trivial
  · exact Check.between_part (slot_mentioned (f := tuple as) h₁)
      (slot_mentioned (f := tuple bs) (hc h₂))

theorem between_tupleChecks {as bs : List Slot} (h : check ∈ tupleChecks as bs) :
    check.Between (.tuple as) (.tuple bs) := by
  unfold tupleChecks at h
  split at h
  · split at h
    · exact between_refused h
    · split at h
      · exact between_refused h
      · split at h
        · exact between_refused h
        · exact between_elementChecks (fun _ h => h) h
  · rename_i rest hrest
    obtain ⟨hlast, hr⟩ := Option.filter_eq_some_iff.mp hrest
    split at h
    · exact between_refused h
    · rcases List.mem_append.mp h with h | h
      · exact between_elementChecks (List.dropLast_subset bs) h
      · cases List.mem_singleton.mp h
        exact Check.between_rest (f := tuple as) (g := tuple bs) (List.mem_of_getLast? hlast) hr
          fun h => by cases h

section Signatures

variable (hg : ∃ sig, g = .function sig ∨ g = .constructor sig)

include hg

theorem between_paramChecks (h : check ∈ paramChecks f.slots g.slots) : check.Between f g := by
  have hfixed (h : check ∈ (f.slots.zip (g.slots.takeWhile (!·.rest))).map paramCheck) :
      check.Between f g := by
    obtain ⟨pair, hp, rfl⟩ := List.mem_map.mp h
    obtain ⟨h₁, h₂⟩ := List.of_mem_zip hp
    exact Check.between_element h₁ (slot_mentioned (List.takeWhile_subset _ h₂)) fun _ => hg
  unfold paramChecks at h
  split at h
  · split at h
    · exact between_refused h
    · exact hfixed h
  · rename_i rest hrest
    rcases List.mem_append.mp h with h | h
    · exact hfixed h
    · cases List.mem_singleton.mp h
      exact Check.between_rest (List.mem_of_find?_eq_some hrest) (List.find?_some hrest) fun _ => hg

theorem between_signatureChecks {a b : Signature} (hsa : f.slots = a.params)
    (hsb : g.slots = b.params)
    (hma : f.mentions = a.receiver.toList ++ a.params.map Slot.type ++ [a.result])
    (hmb : g.mentions = b.receiver.toList ++ b.params.map Slot.type ++ [b.result])
    (h : check ∈ signatureChecks a b) : check.Between f g := by
  unfold signatureChecks at h
  rcases List.mem_append.mp h with h | h
  · obtain ⟨wanted, hw, rfl⟩ := List.mem_map.mp h
    refine ⟨?_, fun h => ?_, fun h => (by cases h), fun h => (by cases h), fun _ => hg⟩
    · cases hr : a.receiver with
      | none => exact .inr rfl
      | some u => exact .inl (by simp [hma, hr])
    · cases h
      simp [hmb, Option.mem_toList.mp hw]
  · rcases List.mem_append.mp h with h | h
    · exact between_paramChecks hg (hsa ▸ hsb ▸ h)
    · cases List.mem_singleton.mp h
      exact Check.between_part (by simp [hma]) (by simp [hmb])

end Signatures

/-- The checks for two forms are about their parts. -/
theorem between_checks (s : TypeId) (f g : Form) : ∀ check ∈ f.checks s g, check.Between f g := by
  intro check
  fun_cases checks s f g with
  | case1 f kind =>
    intro h
    cases List.mem_singleton.mp h
    trivial
  | case2 a b => exact fun h => between_shapeChecks h
  | case3 a b =>
    intro h
    cases List.mem_singleton.mp h
    exact Check.between_part (by simp [mentions]) (by simp [mentions])
  | case4 as b =>
    intro h
    obtain ⟨slot, hm, rfl⟩ := List.mem_map.mp h
    exact Check.between_element hm (by simp [mentions]) fun h => by cases h
  | case5 as bs => exact fun h => between_tupleChecks h
  | case6 k as l bs hk =>
    intro h
    obtain ⟨pair, hp, rfl⟩ := List.mem_map.mp h
    exact Check.between_part (List.of_mem_zip hp).1 (List.of_mem_zip hp).2
  | case7 k as l bs hk => exact fun h => between_refused h
  | case8 a bs =>
    intro h
    obtain ⟨b, hb, rfl⟩ := List.mem_map.mp h
    exact Check.between_part (by simp [mentions]) (List.mem_of_mem_head? (Option.mem_toList.mp hb))
  | case9 a b => exact fun h => between_signatureChecks ⟨b, .inl rfl⟩ rfl rfl rfl rfl h
  | case10 a b => exact fun h => between_signatureChecks ⟨b, .inr rfl⟩ rfl rfl rfl rfl h
  | case11 => exact fun h => between_refused h

/-- An inquiry asks about parts of its two forms only. -/
theorem between_inquiry (s : TypeId) (f g : Form) : (f.inquiry s g).Between f g := by
  fun_cases inquiry s f g with
  | case1 ms g =>
    intro check h
    obtain ⟨m, hm, rfl⟩ := List.mem_map.mp h
    exact ⟨.inl hm, fun h => (by cases h), fun _ => ⟨ms, rfl, m, hm, rfl⟩, fun h => (by cases h),
      fun h => by cases h⟩
  | case2 => rfl
  | case3 f ms =>
    intro check h
    obtain ⟨m, hm, rfl⟩ := List.mem_map.mp h
    exact ⟨trivial, fun h => Option.some.inj h ▸ hm, fun h => (by cases h), fun h => (by cases h),
      fun h => by cases h⟩
  | case4 => rfl
  | case5 f g => exact between_checks s f g

end Form

section AllM

variable {m : Type → Type} [Monad m] {α β : Type}

theorem allM_map (f : β → m Bool) (g : α → β) (xs : List α) :
    (xs.map g).allM f = xs.allM fun x => f (g x) := by
  induction xs with
  | nil => rfl
  | cons x xs ih =>
    simp only [List.map_cons, List.allM]
    rw [ih]

variable [LawfulMonad m]

theorem allM_append (f : α → m Bool) (xs ys : List α) :
    (xs ++ ys).allM f = do if ← xs.allM f then ys.allM f else return false := by
  induction xs with
  | nil => simp [List.allM]
  | cons x xs ih =>
    simp only [List.cons_append, List.allM, bind_assoc]
    rw [ih]
    congr 1
    funext b
    cases b <;> simp

theorem allM_singleton (f : α → m Bool) (x : α) : [x].allM f = f x := by
  conv_rhs => rw [← bind_pure (f x)]
  unfold List.allM
  congr 1
  funext b
  cases b <;> rfl

end AllM

namespace Matcher

variable (ask : Goal → MatchM Bool) {st : Store}

/-- What lies in an intrinsic type can be told from the form. -/
theorem matchIntrinsic_eq {t : TypeId} {node : Node} (h : st.lookup t = some node)
    (kind : Intrinsic) : matchIntrinsic st t kind = (st.form node).lies t kind := by
  cases kind <;> cases node <;>
    simp [matchIntrinsic, Form.lies, Store.isObjectLike, Store.form, h]

section Equations

variable (goal : Goal)

/-- A question about each. -/
theorem allM_asked {α : Type} {f : α → MatchM Bool} (q : α → Question)
    (h : ∀ x, f x = (q x).run ask goal) (xs : List α) :
    xs.allM f = (xs.map fun x => Check.asked (q x)).allM (Check.run ask goal) := by
  rw [allM_map, funext h]
  rfl

theorem matchShape_eq (subject pattern : Shape) :
    matchShape ask subject pattern goal.variance =
      (Form.shapeChecks subject pattern).allM (Check.run ask goal) := by
  have hfield (wanted : Field) : matchField ask subject goal.variance wanted =
      (Form.fieldCheck subject wanted).run ask goal := by
    unfold matchField Form.fieldCheck
    cases subject.field? wanted.name with
    | none => rfl
    | some field =>
      dsimp only
      split <;> rfl
  have hfields : pattern.fields.allM (matchField ask subject goal.variance) =
      (pattern.fields.map (Form.fieldCheck subject)).allM (Check.run ask goal) := by
    rw [allM_map, funext hfield]
  unfold matchShape Form.shapeChecks
  rw [allM_append, hfields]
  cases pattern.index with
  | none => rfl
  | some index =>
    have hindex := allM_asked ask goal (fun t => ⟨.part t, some index.type, false⟩) (fun _ => rfl)
      subject.types
    rw [Option.toList_some, List.flatMap_singleton, ← hindex]
    rfl

theorem matchElements_eq (subject pattern : List Slot) :
    (subject.zip pattern).allM (fun (x, y) => matchElement ask goal.variance x y) =
      ((subject.zip pattern).map Form.elementCheck).allM (Check.run ask goal) := by
  rw [allM_map]
  congr 1
  funext ⟨x, y⟩
  unfold matchElement Form.elementCheck
  dsimp only
  split <;> rfl

theorem matchTuple_eq (subject pattern : List Slot) :
    matchTuple ask subject pattern goal.variance =
      (Form.tupleChecks subject pattern).allM (Check.run ask goal) := by
  have hno : (return false : MatchM Bool) = [Check.settled false].allM (Check.run ask goal) :=
    (allM_singleton ..).symm
  unfold matchTuple Form.tupleChecks
  cases pattern.getLast?.filter Slot.rest with
  | none =>
    dsimp only
    split
    · exact hno
    · split
      · exact hno
      · split
        · exact hno
        · exact matchElements_eq ask goal subject pattern
  | some rest =>
    dsimp only
    split
    · exact hno
    · rw [allM_append, allM_singleton, matchElements_eq]
      rfl

theorem matchParams_eq (subject pattern : List Slot) :
    matchParams ask subject pattern goal.variance =
      (Form.paramChecks subject pattern).allM (Check.run ask goal) := by
  have hfixed (fixed : List Slot) :
      (subject.zip fixed).allM (fun (x, y) => matchParam ask goal.variance x y) =
        ((subject.zip fixed).map Form.paramCheck).allM (Check.run ask goal) :=
    allM_asked ask goal (fun pair : Slot × Slot => ⟨.element pair.1, some pair.2.type, true⟩)
      (fun _ => rfl) _
  unfold matchParams Form.paramChecks
  cases pattern.find? Slot.rest with
  | none =>
    dsimp only
    split
    · exact (allM_singleton ..).symm
    · exact hfixed _
  | some rest =>
    dsimp only
    rw [allM_append, allM_singleton, hfixed]
    rfl

theorem matchSignature_eq (subject pattern : Signature) :
    matchSignature ask subject pattern goal.variance =
      (Form.signatureChecks subject pattern).allM (Check.run ask goal) := by
  have hreceiver : matchReceiver ask subject pattern goal.variance =
      (pattern.receiver.toList.map fun wanted =>
        Check.asked ⟨.part (subject.receiver.getD .unknown), some wanted, true⟩).allM
          (Check.run ask goal) := by
    unfold matchReceiver
    cases pattern.receiver with
    | none => rfl
    | some wanted => exact (allM_singleton ..).symm
  unfold matchSignature Form.signatureChecks
  rw [allM_append, allM_append, allM_singleton, hreceiver, matchParams_eq]
  rfl

/-- Two nodes neither of which is a union or an intersection are matched by the checks for their
forms. -/
theorem matchNodes_eq {subject : Node} (h : st.lookup goal.subject = some subject)
    (pattern : Node) : matchNodes ask st goal subject pattern =
      ((st.form subject).checks goal.subject (st.form pattern)).allM (Check.run ask goal) := by
  have hone (check : Check) : check.run ask goal = [check].allM (Check.run ask goal) :=
    (allM_singleton ..).symm
  cases pattern with
  | intrinsic kind =>
    have hlies := matchIntrinsic_eq h kind
    cases subject <;> exact (congrArg pure hlies).trans (hone (.settled _))
  | object p =>
    cases subject with
    | object s => exact matchShape_eq ask goal _ _
    | _ => exact hone (.settled false)
  | array p =>
    cases subject with
    | array s => exact hone (.asked ⟨.part s, some p, false⟩)
    | tuple s =>
      exact allM_asked ask goal (fun slot => ⟨.element slot, some p, false⟩) (fun _ => rfl) _
    | _ => exact hone (.settled false)
  | tuple p =>
    cases subject with
    | tuple s => exact matchTuple_eq ask goal _ _
    | _ => exact hone (.settled false)
  | wrapper kind args =>
    cases subject with
    | wrapper other sargs =>
      simp only [matchNodes, Form.checks, Store.form]
      split
      · exact allM_asked ask goal (fun pair : TypeId × TypeId => ⟨.part pair.1, some pair.2, false⟩)
          (fun _ => rfl) _
      · exact hone (.settled false)
    | array s =>
      cases kind with
      | iterable =>
        simp only [matchNodes, Form.checks, Store.form]
        cases st.list args with
        | nil => rfl
        | cons p rest => exact hone (.asked ⟨.part s, some p, false⟩)
      | _ => exact hone (.settled false)
    | _ => exact hone (.settled false)
  | function p =>
    cases subject with
    | function s => exact matchSignature_eq ask goal _ _
    | _ => exact hone (.settled false)
  | constructor p =>
    cases subject with
    | constructor s => exact matchSignature_eq ask goal _ _
    | _ => exact hone (.settled false)
  | _ => cases subject <;> exact hone (.settled false)

/-- One level of matching runs the inquiry. -/
theorem matchStructure_eq (pattern : Node) : matchStructure ask goal pattern =
    getThe Store >>= fun st => (st.inquiry goal.subject (st.form pattern)).run ask goal := by
  have hpattern (ms : List TypeId) :=
    allM_asked ask goal (fun t => ⟨.whole, some t, false⟩) (fun _ => rfl) ms
  unfold matchStructure
  congr 1
  funext st
  unfold Store.inquiry
  cases hl : st.lookup goal.subject with
  | none =>
    rw [Store.form?_eq_none.mpr hl]
    exact (allM_singleton ..).symm
  | some subject =>
    rw [Store.form_of_lookup hl]
    have hnodes := matchNodes_eq ask goal hl pattern
    cases subject with
    | union ms => exact allM_asked ask goal (fun t => ⟨.part t, none, false⟩) (fun _ => rfl) _
    | intersection ms =>
      cases pattern with
      | union ms => rfl
      | intersection ms => exact hpattern _
      | _ => rfl
    | _ =>
      cases pattern with
      | union ms => rfl
      | intersection ms => exact hpattern _
      | _ => exact hnodes

end Equations

end Matcher

end TypeCalculus
