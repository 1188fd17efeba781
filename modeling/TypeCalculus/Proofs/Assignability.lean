import TypeCalculus.Proofs.Inquiries

namespace TypeCalculus

open Matcher

namespace Store

variable (st : Store) (R Q : TypeId → TypeId → Prop)

def Element (slot : Slot) (t : TypeId) : Prop := (Matcher.elementType slot).run st = (t, st)

def Remainder (slots : List Slot) (t : TypeId) : Prop := (Matcher.remainder slots).run st = (t, st)

theorem element_of_fixed {slot : Slot} (h : slot.rest = false) : st.Element slot slot.type := by
  unfold Element Matcher.elementType
  simp only [h]
  rfl

def IntrinsicClause (subject : TypeId) (form : Form) : Intrinsic → Prop
  | .object => subject = .object ∨ match form with
    | .object _ | .array _ | .tuple _ | .function _ | .constructor _ | .wrapper _ _ => True
    | _ => False
  | .void => subject = .undefined
  | kind => ∃ value, form = .literal value ∧ value.primitive = kind.id

/-- A wanted field may be absent if it is optional; one that is there may be optional only if the
wanted one is. -/
def FieldClause (subject : Shape) (wanted : Field) : Prop :=
  match subject.field? wanted.name with
  | none => wanted.optional = true
  | some field => (field.optional = true → wanted.optional = true) ∧ R field.type wanted.type

def ShapeClause (subject pattern : Shape) : Prop :=
  (∀ wanted ∈ pattern.fields, FieldClause R subject wanted) ∧
    ∀ index, pattern.index = some index → ∀ t ∈ subject.types, R t index.type

def ElementClause (subject pattern : Slot) : Prop :=
  subject.rest = false ∧ (subject.optional = true → pattern.optional = true) ∧
    R subject.type pattern.type

def ElementsClause (subject pattern : List Slot) : Prop :=
  ∀ pair ∈ subject.zip pattern, ElementClause R pair.1 pair.2

/-- A rest slot counts only at the end of the pattern. -/
def TupleClause (subject pattern : List Slot) : Prop :=
  match pattern.getLast?.filter Slot.rest with
  | none =>
    (∀ slot ∈ subject, slot.rest = false) ∧ pattern.countP (!·.optional) ≤ subject.length ∧
      subject.length ≤ pattern.length ∧ ElementsClause R subject pattern
  | some rest =>
    pattern.dropLast.length ≤ subject.length ∧ ElementsClause R subject pattern.dropLast ∧
      ∃ t, st.Remainder (subject.drop pattern.dropLast.length) t ∧ R t rest.type

def FixedParamsClause (subject pattern : List Slot) : Prop :=
  ∀ pair ∈ subject.zip (pattern.takeWhile (!·.rest)),
    ∃ t, st.Element pair.1 t ∧ Q t pair.2.type

/-- The first rest slot of the pattern takes all that is left of the subject's parameters. -/
def ParamsClause (subject pattern : List Slot) : Prop :=
  match pattern.find? Slot.rest with
  | none =>
    subject.countP (fun slot => !slot.optional && !slot.rest) ≤ pattern.length ∧
      st.FixedParamsClause Q subject pattern
  | some rest =>
    st.FixedParamsClause Q subject pattern ∧
      ∃ t, st.Remainder (subject.drop (pattern.takeWhile (!·.rest)).length) t ∧ Q t rest.type

def SignatureClause (subject pattern : Signature) : Prop :=
  (∀ wanted, pattern.receiver = some wanted → Q (subject.receiver.getD .unknown) wanted) ∧
    st.ParamsClause Q subject.params pattern.params ∧ R subject.result pattern.result

inductive PartsClause (subject : TypeId) : Form → Form → Prop
  | intrinsic {form : Form} {kind : Intrinsic} (h : IntrinsicClause subject form kind) :
    PartsClause subject form (.intrinsic kind)
  | object {a b : Shape} (h : ShapeClause R a b) : PartsClause subject (.object a) (.object b)
  | array {a b : TypeId} (h : R a b) : PartsClause subject (.array a) (.array b)
  | tupleArray {a : List Slot} {b : TypeId} (h : ∀ slot ∈ a, ∃ t, st.Element slot t ∧ R t b) :
    PartsClause subject (.tuple a) (.array b)
  | tuple {a b : List Slot} (h : st.TupleClause R a b) : PartsClause subject (.tuple a) (.tuple b)
  | wrapper {k l : Wrapper} {as bs : List TypeId} (hk : k.provides l = true)
    (h : ∀ pair ∈ as.zip bs, R pair.1 pair.2) : PartsClause subject (.wrapper k as) (.wrapper l bs)
  | iterable {a : TypeId} {bs : List TypeId} (h : ∀ b, bs.head? = some b → R a b) :
    PartsClause subject (.array a) (.wrapper .iterable bs)
  | function {a b : Signature} (h : st.SignatureClause R Q a b) :
    PartsClause subject (.function a) (.function b)
  | constructor {a b : Signature} (h : st.SignatureClause R Q a b) :
    PartsClause subject (.constructor a) (.constructor b)

variable {st R Q} in
/-- Against an intrinsic type there is one clause, whatever the form. -/
theorem partsClause_intrinsic {s : TypeId} {f : Form} {kind : Intrinsic} :
    st.PartsClause R Q s f (.intrinsic kind) ↔ IntrinsicClause s f kind := by
  refine ⟨fun h => ?_, .intrinsic⟩
  cases h with
  | intrinsic h => exact h

/-- What one level of structure asks. Union subjects come first, then union patterns, intersection
patterns and intersection subjects. -/
inductive Clause (s p : TypeId) : Prop
  | unionSubject {ms : List TypeId} {b : Form} (hs : st.form? s = some (.union ms))
    (hp : st.form? p = some b) (h : ∀ m ∈ ms, R m p)
  | unionPattern {a : Form} {ms : List TypeId} {m : TypeId} (hs : st.form? s = some a)
    (ha : a.isUnion = false) (hp : st.form? p = some (.union ms)) (hm : m ∈ ms) (h : R s m)
  | intersectionPattern {a : Form} {ms : List TypeId} (hs : st.form? s = some a)
    (ha : a.isUnion = false) (hp : st.form? p = some (.intersection ms)) (h : ∀ m ∈ ms, R s m)
  | intersectionSubject {ms : List TypeId} {b : Form} {m : TypeId}
    (hs : st.form? s = some (.intersection ms)) (hp : st.form? p = some b)
    (hb : b.isUnion = false) (hb' : b.isIntersection = false) (hm : m ∈ ms) (h : R m p)
  | parts {a b : Form} (hs : st.form? s = some a) (hp : st.form? p = some b)
    (ha : a.isUnion = false) (ha' : a.isIntersection = false)
    (hb : b.isUnion = false) (hb' : b.isIntersection = false) (h : st.PartsClause R Q s a b)

section Inversion

variable {st R Q} {s p : TypeId} {a b : Form} {ms : List TypeId}

theorem clause_unionSubject (hs : st.form? s = some (.union ms)) (hp : st.form? p = some b) :
    st.Clause R Q s p ↔ ∀ m ∈ ms, R m p := by
  refine ⟨fun h => ?_, .unionSubject hs hp⟩
  cases h <;> grind [Form.isUnion]

theorem clause_unionPattern (hs : st.form? s = some a) (ha : a.isUnion = false)
    (hp : st.form? p = some (.union ms)) : st.Clause R Q s p ↔ ∃ m ∈ ms, R s m := by
  refine ⟨fun h => ?_, fun ⟨m, hm, h⟩ => .unionPattern hs ha hp hm h⟩
  cases h with
  | unionPattern _ _ hp' hm h =>
    cases hp.symm.trans hp'
    exact ⟨_, hm, h⟩
  | _ => grind [Form.isUnion]

theorem clause_intersectionPattern (hs : st.form? s = some a) (ha : a.isUnion = false)
    (hp : st.form? p = some (.intersection ms)) : st.Clause R Q s p ↔ ∀ m ∈ ms, R s m := by
  refine ⟨fun h => ?_, .intersectionPattern hs ha hp⟩
  cases h <;> grind [Form.isUnion, Form.isIntersection]

theorem clause_intersectionSubject (hs : st.form? s = some (.intersection ms))
    (hp : st.form? p = some b) (hb : b.isUnion = false) (hb' : b.isIntersection = false) :
    st.Clause R Q s p ↔ ∃ m ∈ ms, R m p := by
  refine ⟨fun h => ?_, fun ⟨m, hm, h⟩ => .intersectionSubject hs hp hb hb' hm h⟩
  cases h with
  | intersectionSubject hs' _ _ _ hm h =>
    cases hs.symm.trans hs'
    exact ⟨_, hm, h⟩
  | _ => grind [Form.isUnion, Form.isIntersection]

theorem clause_parts (hs : st.form? s = some a) (hp : st.form? p = some b)
    (ha : a.isUnion = false) (ha' : a.isIntersection = false) (hb : b.isUnion = false)
    (hb' : b.isIntersection = false) : st.Clause R Q s p ↔ st.PartsClause R Q s a b := by
  refine ⟨fun h => ?_, .parts hs hp ha ha' hb hb'⟩
  cases h <;> grind [Form.isUnion, Form.isIntersection]

end Inversion

variable {st R Q} in
theorem Clause.forms {s p : TypeId} (h : st.Clause R Q s p) :
    ∃ f g, st.form? s = some f ∧ st.form? p = some g := by
  cases h <;> exact ⟨_, _, ‹_›, ‹_›⟩

variable {st R Q} in
theorem Clause.defined {s p : TypeId} (h : st.Clause R Q s p) : (st.form? p).isSome := by
  obtain ⟨_, _, _, hg⟩ := h.forms
  simp [hg]

/-- One unfolding of assignability. In parameters the two sides change places. -/
def Unfolds (s p : TypeId) : Prop :=
  s = p ∨ (st.form? p).isSome ∧
    (p.isTop = true ∨ s = .never ∨ s = .any ∨ st.Clause R (fun s p => R p s) s p)

/-- The greatest relation that implies its own unfolding. -/
def Assignable (s p : TypeId) : Prop :=
  ∃ R : TypeId → TypeId → Prop, (∀ s p, R s p → st.Unfolds R s p) ∧ R s p

end Store

namespace Matcher

section Holds

variable (st : Store) (R Q : TypeId → TypeId → Prop) (subject pattern : TypeId)

def Operand.Is (x : Operand) (t : TypeId) : Prop := (x.fetch subject).run st = (t, st)

def Question.Holds (q : Question) : Prop :=
  ∃ t, q.operand.Is st subject t ∧ (if q.inward then Q else R) t (q.against.getD pattern)

def Check.Holds : Check → Prop
  | .settled holds => holds = true
  | .asked q => q.Holds st R Q subject pattern

def Inquiry.Holds : Inquiry → Prop
  | .all checks => ∀ check ∈ checks, check.Holds st R Q subject pattern
  | .first members => ∃ t ∈ members, R subject t
  | .each members => ∃ t ∈ members, R t pattern

end Holds

section Lemmas

variable {st : Store} {R Q : TypeId → TypeId → Prop} {s p a b t : TypeId}

@[simp] theorem is_whole : Operand.whole.Is st s t ↔ t = s :=
  ⟨fun h => (congrArg Prod.fst h).symm, fun h => h ▸ rfl⟩

@[simp] theorem is_part : (Operand.part a).Is st s t ↔ t = a :=
  ⟨fun h => (congrArg Prod.fst h).symm, fun h => h ▸ rfl⟩

@[simp] theorem holds_settled {holds : Bool} :
    (Check.settled holds).Holds st R Q s p ↔ holds = true := .rfl

@[simp] theorem holds_member :
    (Check.asked ⟨.part a, none, false⟩).Holds st R Q s p ↔ R a p := by
  simp [Check.Holds, Question.Holds]

@[simp] theorem holds_whole :
    (Check.asked ⟨.whole, some b, false⟩).Holds st R Q s p ↔ R s b := by
  simp [Check.Holds, Question.Holds]

@[simp] theorem holds_part {inward : Bool} :
    (Check.asked ⟨.part a, some b, inward⟩).Holds st R Q s p ↔ (if inward then Q else R) a b := by
  simp [Check.Holds, Question.Holds]

@[simp] theorem holds_element {slot : Slot} {inward : Bool} :
    (Check.asked ⟨.element slot, some b, inward⟩).Holds st R Q s p ↔
      ∃ t, st.Element slot t ∧ (if inward then Q else R) t b := .rfl

@[simp] theorem holds_rest {slots : List Slot} {inward : Bool} :
    (Check.asked ⟨.rest slots, some b, inward⟩).Holds st R Q s p ↔
      ∃ t, st.Remainder slots t ∧ (if inward then Q else R) t b := .rfl

end Lemmas

end Matcher

namespace Store

section Clauses

variable {st : Store} {R Q : TypeId → TypeId → Prop} {s : TypeId} (p : TypeId)

theorem intrinsicClause_iff {f : Form} {kind : Intrinsic} :
    IntrinsicClause s f kind ↔ f.lies s kind = true := by
  cases kind <;> cases f <;> simp [IntrinsicClause, Form.lies]

theorem fieldClause_iff (st : Store) (Q : TypeId → TypeId → Prop) (s p : TypeId) {subject : Shape}
    {wanted : Field} :
    FieldClause R subject wanted ↔ (Form.fieldCheck subject wanted).Holds st R Q s p := by
  unfold FieldClause Form.fieldCheck
  cases subject.field? wanted.name with
  | none => exact .rfl
  | some field =>
    dsimp only
    split
    · rename_i h
      simp_all
    · rename_i h
      simp_all

theorem shapeClause_iff {a b : Shape} :
    ShapeClause R a b ↔ ∀ check ∈ Form.shapeChecks a b, check.Holds st R Q s p := by
  unfold ShapeClause Form.shapeChecks
  rw [List.forall_mem_append]
  apply and_congr
  · simp only [List.forall_mem_map]
    exact forall₂_congr fun wanted _ => fieldClause_iff st Q s p
  · cases b.index <;> simp

theorem not_holds_refused : ¬ ∀ check ∈ [Check.settled false], check.Holds st R Q s p := by
  simp

theorem elementsClause_iff (st : Store) (Q : TypeId → TypeId → Prop) (s p : TypeId)
    {as bs : List Slot} : ElementsClause R as bs ↔
    ∀ check ∈ (as.zip bs).map Form.elementCheck, check.Holds st R Q s p := by
  unfold ElementsClause
  simp only [List.forall_mem_map]
  refine forall₂_congr fun pair _ => ?_
  unfold ElementClause Form.elementCheck
  split
  · rename_i h
    refine iff_of_false (fun hc => ?_) (by simp)
    obtain ⟨hrest, hoptional, _⟩ := hc
    cases ho : pair.1.optional <;> simp_all
  · simp_all

theorem tupleClause_iff {as bs : List Slot} :
    st.TupleClause R as bs ↔ ∀ check ∈ Form.tupleChecks as bs, check.Holds st R Q s p := by
  unfold TupleClause Form.tupleChecks
  cases bs.getLast?.filter Slot.rest with
  | none =>
    dsimp only
    rw [elementsClause_iff st Q s p]
    split
    · rename_i hrest
      refine iff_of_false (fun hc => ?_) (not_holds_refused p)
      obtain ⟨slot, hm, hrest⟩ := List.any_eq_true.mp hrest
      simp [hc.1 slot hm] at hrest
    · rename_i hrest
      split
      · exact iff_of_false (fun hc => by have := hc.2.1; omega) (not_holds_refused p)
      · split
        · exact iff_of_false (fun hc => by have := hc.2.2.1; omega) (not_holds_refused p)
        · simp only [List.any_eq_true, not_exists, not_and, Bool.not_eq_true] at hrest
          exact ⟨fun hc => hc.2.2.2, fun hc => ⟨hrest, by omega, by omega, hc⟩⟩
  | some rest =>
    dsimp only
    rw [elementsClause_iff st Q s p]
    split
    · exact iff_of_false (fun hc => by have := hc.1; omega) (not_holds_refused p)
    · rw [List.forall_mem_append]
      simp only [List.forall_mem_singleton, holds_rest]
      exact ⟨fun hc => hc.2, fun hc => ⟨by omega, hc⟩⟩

/-- Parameters are asked about with the sides exchanged. -/
theorem paramsClause_iff {as bs : List Slot} :
    st.ParamsClause Q as bs ↔ ∀ check ∈ Form.paramChecks as bs, check.Holds st R Q s p := by
  have hfixed : st.FixedParamsClause Q as bs ↔
      ∀ check ∈ (as.zip (bs.takeWhile (!·.rest))).map Form.paramCheck, check.Holds st R Q s p := by
    simp only [List.forall_mem_map]
    exact .rfl
  unfold ParamsClause Form.paramChecks
  cases bs.find? Slot.rest with
  | none =>
    dsimp only
    rw [hfixed]
    split
    · exact iff_of_false (fun hc => by have := hc.1; omega) (not_holds_refused p)
    · exact ⟨fun hc => hc.2, fun hc => ⟨by omega, hc⟩⟩
  | some rest =>
    dsimp only
    rw [hfixed, List.forall_mem_append]
    simp

theorem signatureClause_iff {a b : Signature} :
    st.SignatureClause R Q a b ↔ ∀ check ∈ Form.signatureChecks a b, check.Holds st R Q s p := by
  unfold SignatureClause Form.signatureChecks
  rw [List.forall_mem_append, List.forall_mem_append, paramsClause_iff (R := R) (s := s) p]
  refine and_congr ?_ (and_congr .rfl (by simp))
  cases b.receiver <;> simp

/-- The clause for two forms holds if all of its checks do. -/
theorem partsClause_iff {f g : Form} : st.PartsClause R Q s f g ↔
    ∀ check ∈ f.checks s g, check.Holds st R Q s p := by
  fun_cases Form.checks s f g with
  | case1 kind => simp [partsClause_intrinsic, intrinsicClause_iff]
  | case2 a b =>
    rw [← shapeClause_iff p]
    exact ⟨fun h => by cases h; assumption, .object⟩
  | case3 a b =>
    simp only [List.forall_mem_singleton, holds_part]
    exact ⟨fun h => by cases h; assumption, .array⟩
  | case4 as b =>
    simp only [List.forall_mem_map, holds_element]
    exact ⟨fun h => by cases h; assumption, .tupleArray⟩
  | case5 as bs =>
    rw [← tupleClause_iff p]
    exact ⟨fun h => by cases h; assumption, .tuple⟩
  | case6 k as l bs hk =>
    simp only [List.forall_mem_map, holds_part]
    exact ⟨fun h => by cases h; assumption, .wrapper hk⟩
  | case7 k as l bs hk =>
    refine iff_of_false (fun h => ?_) (not_holds_refused p)
    cases h with
    | wrapper h _ => exact hk h
  | case8 a bs =>
    simp only [List.forall_mem_map, holds_part, Option.mem_toList]
    exact ⟨fun h => by cases h; assumption, .iterable⟩
  | case9 a b =>
    rw [← signatureClause_iff p]
    exact ⟨fun h => by cases h; assumption, .function⟩
  | case10 a b =>
    rw [← signatureClause_iff p]
    exact ⟨fun h => by cases h; assumption, .constructor⟩
  | case11 f g _ _ _ _ _ hwrapper =>
    refine iff_of_false (fun h => ?_) (not_holds_refused p)
    cases h with
    | wrapper => exact hwrapper _ _ _ _ rfl rfl
    | _ => simp_all

theorem isUnion_false {f : Form} (h : ∀ ms, f = .union ms → False) : f.isUnion = false := by
  cases f <;> simp_all [Form.isUnion]

theorem isIntersection_false {f : Form} (h : ∀ ms, f = .intersection ms → False) :
    f.isIntersection = false := by
  cases f <;> simp_all [Form.isIntersection]

/-- What a clause asks is what the inquiry asks. -/
theorem clause_iff {f g : Form} (hf : st.form? s = some f) (hg : st.form? p = some g) :
    st.Clause R Q s p ↔ (f.inquiry s g).Holds st R Q s p := by
  fun_cases Form.inquiry s f g with
  | case1 ms =>
    rw [clause_unionSubject hf hg]
    simp [Inquiry.Holds]
  | case2 f ms hu => exact clause_unionPattern hf (isUnion_false hu) hg
  | case3 f ms hu =>
    rw [clause_intersectionPattern hf (isUnion_false hu) hg]
    simp [Inquiry.Holds]
  | case4 g ms hu hi =>
    exact clause_intersectionSubject hf hg (isUnion_false hu) (isIntersection_false hi)
  | case5 f g hu hu' hi' hi =>
    rw [clause_parts hf hg (isUnion_false hu) (isIntersection_false hi) (isUnion_false hu')
      (isIntersection_false hi')]
    exact partsClause_iff p

end Clauses

section Transfer

variable {st : Store} {R Q R' Q' : TypeId → TypeId → Prop}

/-- What a clause may set against a part of its pattern in place of its subject: a part of it, or
several slots taken together, or `unknown` for a receiver that is not given. -/
inductive SubjectPart (st : Store) (s : TypeId) : TypeId → Prop
  | mention {a : TypeId} (h : a ∈ st.mentions s) : SubjectPart st s a
  | element {f : Form} {slot : Slot} {a : TypeId} (hf : st.form? s = some f) (hm : slot ∈ f.slots)
    (h : st.Element slot a) : SubjectPart st s a
  | remainder {f : Form} {n : Nat} {a : TypeId} (hf : st.form? s = some f)
    (h : st.Remainder (f.slots.drop n) a) : SubjectPart st s a
  | unknown : SubjectPart st s .unknown

def Member (st : Store) (s a : TypeId) : Prop :=
  ∃ ms, (st.form? s = some (.union ms) ∨ st.form? s = some (.intersection ms)) ∧ a ∈ ms

theorem Member.mentioned {st : Store} {s a : TypeId} (h : st.Member s a) : a ∈ st.mentions s := by
  obtain ⟨ms, hf | hf, ha⟩ := h <;> exact mentions_of_form hf ▸ ha

def Asked (st : Store) (s p a b : TypeId) : Prop :=
  (a = s ∨ st.SubjectPart s a) ∧ b ∈ st.mentions p ∨ st.Member s a ∧ b = p

structure SameParts (st st' : Store) (s : TypeId) : Prop where
  form : st'.form? s = st.form? s
  element {f : Form} {slot : Slot} {a : TypeId} : st.form? s = some f → slot ∈ f.slots →
    st.Element slot a → st'.Element slot a
  remainder {f : Form} {n : Nat} {a : TypeId} : st.form? s = some f →
    st.Remainder (f.slots.drop n) a → st'.Remainder (f.slots.drop n) a

theorem SameParts.refl (st : Store) (s : TypeId) : SameParts st st s :=
  ⟨rfl, fun _ _ h => h, fun _ h => h⟩

variable {st' : Store} {s p t : TypeId} {f g : Form} {q : Question}
variable (hf : st.form? s = some f) (hg : st.form? p = some g)

include hf

/-- What is asked about is the subject or a part of it. -/
theorem subjectPart_operand {x : Operand} (hx : x.Of f) (h : x.Is st s t) :
    t = s ∨ st.SubjectPart s t := by
  cases x with
  | whole => exact .inl (is_whole.mp h)
  | part u =>
    cases is_part.mp h
    rcases hx with hx | rfl
    · exact .inr (.mention (mentions_of_form hf ▸ hx))
    · exact .inr .unknown
  | element slot => exact .inr (.element hf hx h)
  | rest slots =>
    obtain ⟨n, rfl⟩ := hx
    exact .inr (.remainder hf h)

include hg in
/-- The questions of an inquiry are among the pairs that the clause may ask about. -/
theorem asked_question (hq : q.Between f g) (h : q.operand.Is st s t) :
    st.Asked s p t (q.against.getD p) := by
  cases ha : q.against with
  | none =>
    obtain ⟨ms, rfl, m, hm, ho⟩ := hq.member ha
    rw [ho] at h
    cases is_part.mp h
    exact .inr ⟨⟨ms, .inl hf, hm⟩, rfl⟩
  | some b =>
    exact .inl ⟨subjectPart_operand hf hq.operand h, mentions_of_form hg ▸ hq.against ha⟩

variable (same : SameParts st st' s)

include same

/-- An operand comes to the same types wherever the subject has the same parts. -/
theorem SameParts.operand {x : Operand} (hx : x.Of f) (h : x.Is st s t) : x.Is st' s t := by
  cases x with
  | whole => exact is_whole.mpr (is_whole.mp h)
  | part u => exact is_part.mpr (is_part.mp h)
  | element slot => exact same.element hf hx h
  | rest slots =>
    obtain ⟨n, rfl⟩ := hx
    exact same.remainder hf h

variable (hR : ∀ a b, st.Asked s p a b → R a b → R' a b)
variable (hQ : ∀ a b, st.Asked s p a b → Q a b → Q' a b)

include hg hR hQ

theorem transfer_question (hq : q.Between f g) (h : q.Holds st R Q s p) :
    q.Holds st' R' Q' s p := by
  obtain ⟨t, ht, h⟩ := h
  have hasked := asked_question hf hg hq ht
  refine ⟨t, same.operand hf hq.operand ht, ?_⟩
  cases hi : q.inward <;> simp only [hi, if_true, Bool.false_eq_true, if_false] at h ⊢
  · exact hR _ _ hasked h
  · exact hQ _ _ hasked h

/-- What was answered yes in one store is answered yes in the other. -/
theorem transfer_inquiry {i : Inquiry} (hi : i.Between f g) (h : i.Holds st R Q s p) :
    i.Holds st' R' Q' s p := by
  cases i with
  | all checks =>
    intro check hc
    have hb := hi check hc
    have hh := h check hc
    cases check with
    | settled holds => exact hh
    | asked q => exact transfer_question hf hg same hR hQ hb hh
  | first members =>
    cases hi
    obtain ⟨m, hm, h⟩ := h
    exact ⟨m, hm, hR _ _ (.inl ⟨.inl rfl, mentions_of_form hg ▸ hm⟩) h⟩
  | each members =>
    cases hi
    obtain ⟨m, hm, h⟩ := h
    exact ⟨m, hm, hR _ _ (.inr ⟨⟨members, .inr hf, hm⟩, rfl⟩) h⟩

omit hf hg in
/-- A clause holds in another store, of other relations, if its two types are made of the same parts
there and the relations hold of all that the clause may ask about. -/
theorem Clause.transfer (hp : st'.form? p = st.form? p) (h : st.Clause R Q s p) :
    st'.Clause R' Q' s p := by
  obtain ⟨f, g, hf, hg⟩ := h.forms
  rw [clause_iff p hf hg] at h
  rw [clause_iff p (same.form.trans hf) (hp.trans hg)]
  exact transfer_inquiry hf hg same hR hQ (Form.between_inquiry s f g) h

end Transfer

section Unfolding

variable {st : Store} {R R' : TypeId → TypeId → Prop}

theorem Unfolds.mono {s p : TypeId} (h : st.Unfolds R s p) (hR : ∀ s p, R s p → R' s p) :
    st.Unfolds R' s p := by
  rcases h with h | ⟨hd, h | h | h | h⟩
  · exact .inl h
  · exact .inr ⟨hd, .inl h⟩
  · exact .inr ⟨hd, .inr (.inl h)⟩
  · exact .inr ⟨hd, .inr (.inr (.inl h))⟩
  · exact .inr ⟨hd, .inr (.inr (.inr
      (h.transfer (.refl st s) (fun a b _ => hR a b) (fun a b _ => hR b a) rfl)))⟩

/-- Assignability implies its own unfolding. -/
theorem Assignable.unfold {s p : TypeId} (h : st.Assignable s p) :
    st.Unfolds st.Assignable s p := by
  obtain ⟨R, hR, h⟩ := h
  exact (hR s p h).mono fun s p h => ⟨R, hR, h⟩

/-- Conversely, what unfolds to assignability is assignable. -/
theorem Unfolds.fold {s p : TypeId} (h : st.Unfolds st.Assignable s p) : st.Assignable s p :=
  ⟨st.Unfolds st.Assignable, fun _ _ h => h.mono fun _ _ h => h.unfold, h⟩

/-- Every type is assignable to itself, whether it is there or not. -/
theorem Assignable.refl (s : TypeId) : st.Assignable s s := Unfolds.fold (.inl rfl)

/-- To be assignable it is enough that the parts are. -/
theorem Clause.assignable {s p : TypeId}
    (h : st.Clause st.Assignable (fun s p => st.Assignable p s) s p) : st.Assignable s p :=
  Unfolds.fold (.inr ⟨h.defined, .inr (.inr (.inr h))⟩)

end Unfolding

end Store

end TypeCalculus
