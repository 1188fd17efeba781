import TypeCalculus.Proofs.Bounds

namespace TypeCalculus

namespace Store

variable {st : Store}

theorem Element.unique {slot : Slot} {t u : TypeId} (ht : st.Element slot t)
    (hu : st.Element slot u) :
    t = u := congrArg Prod.fst (ht.symm.trans hu)

theorem element_of_array {slot : Slot} {x : TypeId} (hrest : slot.rest = true)
    (hx : st.form? slot.type = some (.array x)) : st.Element slot x := by
  obtain ⟨node, hn, hd⟩ := lookup_of_form hx
  cases node with
  | array y =>
    cases hd
    rw [Element, run_elementType]
    simp [hrest, hn]
  | _ => cases hd

/-- Two functions are compared by their signatures, unless they are the same. -/
theorem Founded.assignable_function (hf : st.Founded) {s p : TypeId} {a b : Signature}
    (hs : st.form? s = some (.function a)) (hp : st.form? p = some (.function b)) (hne : a ≠ b) :
    st.Assignable s p ↔
      st.SignatureClause st.Assignable (fun s p => st.Assignable p s) a b := by
  have hno {t : TypeId} {sig : Signature} (ht : st.form? t = some (.function sig))
      (kind : Intrinsic) :
      t ≠ kind.id := by
    rintro rfl
    cases ht.symm.trans (hf.form kind)
  constructor
  · intro h
    rcases h.unfold with rfl | ⟨_, htop | rfl | rfl | hc⟩
    · cases hs.symm.trans hp
      exact absurd rfl hne
    · obtain ⟨kind, hkind⟩ := hf.form_top htop
      cases hp.symm.trans hkind
    · exact absurd rfl (hno hs .never)
    · exact absurd rfl (hno hs .any)
    · cases (clause_parts hs hp rfl rfl rfl rfl).mp hc with
      | function h => exact h
  · intro h
    exact Clause.assignable (.parts hs hp rfl rfl rfl rfl (.function h))

section Fixed

variable {Q : TypeId → TypeId → Prop} {pattern : List Slot}
  (hfixed : ∀ slot ∈ pattern, slot.rest = false)

include hfixed

/-- Without a rest parameter in the pattern, parameters are compared in pairs, up to the end of the
shorter list. -/
theorem paramsClause_fixed {subject : List Slot} : st.ParamsClause Q subject pattern ↔
    subject.countP (fun slot => !slot.optional && !slot.rest) ≤ pattern.length ∧
      ∀ pair ∈ subject.zip pattern, ∃ t, st.Element pair.1 t ∧ Q t pair.2.type := by
  have hnone : pattern.find? Slot.rest = none := List.find?_eq_none.mpr fun slot hm => by
    simp [hfixed slot hm]
  have hall : pattern.takeWhile (!·.rest) = pattern :=
    List.takeWhile_eq_self_iff.mpr fun slot hm => by
    simp [hfixed slot hm]
  rw [ParamsClause, hnone, FixedParamsClause, hall]

/-- A lone rest parameter is asked about the first parameter of the pattern only. -/
theorem paramsClause_rest {rest first : Slot} {others : List Slot} (hp : pattern = first :: others)
    {x : TypeId} (hrest : rest.rest = true) (hx : st.form? rest.type = some (.array x)) :
    st.ParamsClause Q [rest] pattern ↔ Q x first.type := by
  have helement := element_of_array hrest hx
  rw [paramsClause_fixed hfixed, hp]
  simp only [hrest, List.countP_cons, List.countP_nil, List.zip_cons_cons, List.zip_nil_left,
    List.mem_singleton, forall_eq]
  exact ⟨fun h => by
    obtain ⟨_, t, ht, hq⟩ := h
    exact ht.unique helement ▸ hq, fun h => ⟨by simp, x, helement, h⟩⟩

/-- Optional parameters, as many as the pattern has, are asked about all of its parameters. -/
theorem paramsClause_optional {params : List Slot} {x : TypeId}
    (hlen : params.length = pattern.length)
    (hparams : ∀ slot ∈ params, slot.type = x ∧ slot.optional = true ∧ slot.rest = false) :
    st.ParamsClause Q params pattern ↔ ∀ slot ∈ pattern, Q x slot.type := by
  rw [paramsClause_fixed hfixed]
  constructor
  · rintro ⟨_, h⟩ slot hm
    obtain ⟨i, hi, rfl⟩ := List.getElem_of_mem hm
    have hi' : i < params.length := hlen ▸ hi
    obtain ⟨t, ht, hq⟩ := h (params[i], pattern[i]) (by
      rw [← List.getElem_zip (h := by simp [hi, hi'])]
      exact List.getElem_mem _)
    obtain ⟨hx, _, hrest⟩ := hparams _ (List.getElem_mem hi')
    rw [← hx, ← ht.unique (st.element_of_fixed hrest)]
    exact hq
  · intro h
    refine ⟨?_, fun pair hp => ?_⟩
    · rw [List.countP_eq_zero.mpr fun slot hm => by simp [(hparams slot hm).2.1]]
      exact Nat.zero_le _
    · obtain ⟨h₁, h₂⟩ := List.of_mem_zip hp
      obtain ⟨hx, _, hrest⟩ := hparams _ h₁
      exact ⟨pair.1.type, st.element_of_fixed hrest, hx ▸ h _ h₂⟩

end Fixed

end Store

namespace Operation

/-- A function whose only parameter takes the rest of its arguments is assignable to one with fixed
parameters if the first of these fits, whatever the others are. The function that has an optional
parameter in place of each argument is assignable if they all fit: so the two agree only where the
others do. The questions may be asked in any order, and whatever else may be added to the store
between them. -/
theorem rest_parameter_answers_for_first {ops : List Operation}
    (h : AllAccepted .typed .initial ops) {variadic spread target x result wanted : TypeId}
    {rest first : Slot} {params others : List Slot} :
    let st := afterAll .initial ops
    st.form? variadic = some (.function { params := [rest], result }) →
    rest.rest = true → st.form? rest.type = some (.array x) →
    st.form? spread = some (.function { params, result }) →
    (∀ slot ∈ params, slot.type = x ∧ slot.optional = true ∧ slot.rest = false) →
    st.form? target = some (.function { params := first :: others, result := wanted }) →
    (∀ slot ∈ first :: others, slot.optional = false ∧ slot.rest = false) →
    params.length = (first :: others).length →
    (∀ t ∈ [variadic, spread, target], st.Concrete t) →
    ∀ st' whole each gives (fits : TypeId → Bool), st.Answered st' variadic target whole →
      st.Answered st' spread target each → st.Answered st' result wanted gives →
      (∀ slot ∈ first :: others, st.Answered st' slot.type x (fits slot.type)) →
      (whole = true ↔ fits first.type = true ∧ gives = true) ∧
        (each = true ↔ whole = true ∧ ∀ slot ∈ others, fits slot.type = true) := by
  intro st hvariadic hrest hx hspread hparams htarget hfixed hlen hc st' whole each gives fits
    hwhole heach hgives hfits
  have hg : Discipline.Good .typed st := h.good
  have hw := hg.wellFormed
  have hcv : st.Concrete variadic := hc _ (by simp)
  have hcs : st.Concrete spread := hc _ (by simp)
  have hct : st.Concrete target := hc _ (by simp)
  have hpart {t u : TypeId} {f : Form} (ht : st.Concrete t) (hf : st.form? t = some f)
      (hu : u ∈ f.mentions) : st.Concrete u :=
    Store.kind_concrete.child hw ht (Store.mentions_of_form hf ▸ hu)
  have hcrest : st.Concrete rest.type := hpart hcv hvariadic (by simp [Form.mentions])
  have hcx : st.Concrete x := hpart hcrest hx (by simp [Form.mentions])
  have hcresult : st.Concrete result := hpart hcv hvariadic (by simp [Form.mentions])
  have hcwanted : st.Concrete wanted := hpart hct htarget (by simp [Form.mentions])
  have hcslot {slot : Slot} (hm : slot ∈ first :: others) : st.Concrete slot.type :=
    hpart hct htarget (Form.slot_mentioned
      (f := .function { params := first :: others, result := wanted }) hm)
  -- All the answers are about the last store, where the three functions are what they were.
  have hend := hwhole.evolves hg hcv hct
  have hfounded := (hend.good hg).wellFormed.founded
  have hform {t : TypeId} {f : Form} (ht : st.Concrete t) (hf : st.form? t = some f) :
      st'.form? t = some f := (hw.form_extends hend.grown ht.valid).trans hf
  have hnone : ∀ slot ∈ first :: others, slot.rest = false := fun slot hm => (hfixed slot hm).2
  have hne {ps : List Slot} (hps : first ∉ ps) :
      ({ params := ps, result } : Signature) ≠ { params := first :: others, result := wanted } := by
    intro he
    rw [(Signature.mk.inj he).2.1] at hps
    exact hps List.mem_cons_self
  have hrequired := hfixed first List.mem_cons_self
  have hone : whole = true ↔ fits first.type = true ∧ gives = true := by
    have hfirst : first ∉ [rest] := by
      intro hm
      rw [List.mem_singleton.mp hm] at hrequired
      simp [hrest] at hrequired
    rw [hwhole.iff_assignable hg hcv hct, hfounded.assignable_function (hform hcv hvariadic)
      (hform hct htarget) (hne hfirst), Store.SignatureClause,
      Store.paramsClause_rest hnone rfl hrest (hform hcrest hx)]
    simp [hgives.iff_assignable hg hcresult hcwanted,
      (hfits first List.mem_cons_self).iff_assignable hg (hcslot List.mem_cons_self) hcx]
  have hall : each = true ↔ (∀ slot ∈ first :: others, fits slot.type = true) ∧ gives = true := by
    have hfit := forall₂_congr fun slot hm => (hfits slot hm).iff_assignable hg (hcslot hm) hcx
    have hfirst : first ∉ params := fun hm => by simp [(hparams first hm).2.1] at hrequired
    rw [heach.iff_assignable hg hcs hct, hfounded.assignable_function (hform hcs hspread)
      (hform hct htarget) (hne hfirst), Store.SignatureClause,
      Store.paramsClause_optional hnone hlen hparams]
    simp only [hgives.iff_assignable hg hcresult hcwanted, hfit]
    simp
  refine ⟨hone, ?_⟩
  rw [hall, hone, List.forall_mem_cons]
  tauto

/-- At place 14 a function that takes any number of strings, at 15 one that takes up to two; at 16
one that takes a literal and a string, and at 17 one that takes a string and a number. -/
def listeners : List Operation :=
  [.build (.array .string), .build (.literal (.string "a")),
    .build (.function
      { params := [{ type := 12, name := some "xs", rest := true }], result := .void }),
    .build (.function { params := [{ type := .string, name := some "x1", optional := true },
      { type := .string, name := some "x2", optional := true }], result := .void }),
    .build (.function { params := [{ type := 13, name := some "p1" },
      { type := .string, name := some "p2" }], result := .void }),
    .build (.function { params := [{ type := .string, name := some "p1" },
      { type := .number, name := some "p2" }], result := .void })]

theorem concrete_listeners {t : TypeId}
    (ht : t ∈ [TypeId.string, .number, .void, 12, 13, 14, 15, 16, 17]) :
    (afterAll .initial listeners).Concrete t :=
  Store.concrete_of_closed (reached_afterAll .initial listeners).founded _ (by decide +kernel)
    (by decide +kernel) (by decide +kernel) ht

/-- All the arguments fit, and both functions are assignable. -/
theorem rest_parameter_answers_for_first_literal :
    AllAccepted .typed .initial listeners ∧
    let st := afterAll .initial listeners
    (∀ t ∈ [14, 15, 16], st.Concrete t) ∧
      (∀ t ∈ [13, TypeId.string], st.Answered st t .string true) ∧
      st.Answered st .void .void true ∧
      ((isAssignable 14 16).run st).1 = true ∧ ((isAssignable 15 16).run st).1 = true := by
  have haccepted : AllAccepted .typed .initial listeners :=
    allAccepted_of_builds (by decide +kernel)
  have hconcrete : ∀ t ∈ [14, 15, 16], (afterAll .initial listeners).Concrete t := fun t ht =>
    concrete_listeners (by revert t; decide)
  have hfits : ∀ t ∈ [13, TypeId.string],
      (afterAll .initial listeners).Answered (afterAll .initial listeners) t .string true := by
    intro t ht
    exact ⟨_, .refl _, by revert t; decide +kernel, by revert t; decide +kernel,
      .of_eq (by revert t; decide +kernel)⟩
  have hgives : (afterAll .initial listeners).Answered (afterAll .initial listeners)
      .void .void true :=
    ⟨_, .refl _, by decide +kernel, by decide +kernel, .of_eq (by decide +kernel)⟩
  have hvariadic : (afterAll .initial listeners).form? 14 = some (.function
      { params := [{ type := 12, name := some "xs", rest := true }], result := .void }) := by
    decide +kernel
  have hspread : (afterAll .initial listeners).form? 15 = some (.function
      { params := [{ type := .string, name := some "x1", optional := true },
          { type := .string, name := some "x2", optional := true }]
        result := .void }) := by
    decide +kernel
  have htarget : (afterAll .initial listeners).form? 16 = some (.function
      { params := [{ type := 13, name := some "p1" }, { type := .string, name := some "p2" }]
        result := .void }) := by
    decide +kernel
  have harray : (afterAll .initial listeners).form? 12 = some (.array .string) := by decide +kernel
  obtain ⟨hwhole, heach⟩ := rest_parameter_answers_for_first haccepted hvariadic rfl harray hspread
    (by decide) htarget (by decide) rfl hconcrete (afterAll .initial listeners) _ _ true
    (fun _ => true)
    ⟨_, .refl _, by decide +kernel, rfl, .of_eq (by decide +kernel)⟩
    ⟨_, .refl _, by decide +kernel, rfl, .of_eq (by decide +kernel)⟩ hgives
    (fun slot hm => hfits slot.type (by revert slot; decide))
  have htrue := hwhole.mpr ⟨rfl, rfl⟩
  exact ⟨haccepted, hconcrete, hfits, hgives, htrue, heach.mpr ⟨htrue, fun _ _ => rfl⟩⟩

/-- A number is no string, so the function with two optional strings is not assignable; the other
one is, though it takes nothing but strings. -/
theorem rest_parameter_overlooks_second :
    AllAccepted .typed .initial listeners ∧
    let st := afterAll .initial listeners
    (∀ t ∈ [14, 15, 17], st.Concrete t) ∧
      (∀ t ∈ [14, 15], ((Matcher.run .matching t 17).run st).1.2.guard.overrun = false) ∧
      ((isAssignable 14 17).run st).1 = true ∧ ((isAssignable 15 17).run st).1 = false :=
  ⟨allAccepted_of_builds (by decide +kernel), fun t ht => concrete_listeners (by revert t; decide),
    by decide +kernel, by decide +kernel, by decide +kernel⟩

end Operation

end TypeCalculus
