import TypeCalculus.Proofs.Empties
import TypeCalculus.Proofs.Verdicts

namespace TypeCalculus

namespace Store

variable {st st' : Store} {t u : TypeId}

namespace Steady

variable (h : st.Steady st' t)

include h

theorem reaches : st'.Reaches t u ↔ st.Reaches t u := by
  constructor
  · intro hu
    refine hu.inside (X := st.Reaches t) (fun x hx c hc => hx.tail ?_) .refl
    rw [mentions_eq, (h x hx).2, ← mentions_eq] at hc
    exact hc
  · intro hu
    have hin : st'.Reaches t u ∧ st.Reaches t u := by
      refine hu.inside (X := fun x => st'.Reaches t x ∧ st.Reaches t x) (fun x hx c hc => ?_)
        ⟨.refl, .refl⟩
      refine ⟨hx.1.tail ?_, hx.2.tail hc⟩
      rw [mentions_eq, (h x hx.2).2, ← mentions_eq]
      exact hc
    exact hin.1

theorem unbound (params : Bindings) : st'.Unbound params t ↔ st.Unbound params t := by
  refine forall_congr' fun u => ?_
  rw [h.reaches]
  refine imp_congr_right fun hu => ?_
  rw [(h u hu).2]

end Steady

/-- Only what reaches a placeholder notices that it is given a body. -/
theorem steady_filled {body : Node} (h : ¬ st.Reaches t u) : st.Steady (st.filled u body) t := by
  intro v hv
  have hne : v ≠ u := by
    rintro rfl
    exact h hv
  exact ⟨by simp only [lookup, filled_cell_ne hne], filled_form_ne hne⟩

theorem Solid.reached (h : st.Solid t) (hu : st.Reaches t u) : st.Solid u :=
  fun v hv => h v (hu.trans hv)

/-- The parts of a solid type are older, so no path comes back to one. -/
theorem Trail.lt_of_solid (ha : st.Anchored) {root : TypeId} {trail : List TypeId}
    (h : st.Trail root trail t) :
    ∀ u ∈ trail, st.Reaches u t ∧ (st.Solid u → t < u) := by
  induction h with
  | root => exact fun _ hm => by cases hm
  | @step trail x c _ _ hc ih =>
    intro u hu
    rcases List.mem_cons.mp hu with rfl | hu
    · exact ⟨.single hc, fun hs => ha.below hs.isReserved hc⟩
    · obtain ⟨hr, hlt⟩ := ih u hu
      exact ⟨hr.tail hc, fun hs => Nat.lt_trans (ha.below (hs.reached hr).isReserved hc) (hlt hs)⟩

/-- No path through a solid type comes back to it. -/
theorem Solid.not_cycleEntry (h : st.Solid t) (ha : st.Anchored) {root : TypeId} :
    ¬ st.CycleEntry root t := by
  rintro ⟨_, trail, htrail, hm⟩
  exact Nat.lt_irrefl t ((htrail.lt_of_solid ha t hm).2 h)

/-- Types that mention each other only, none of which is a placeholder. -/
theorem solid_of_closed (ts : List TypeId) (closed : ∀ t ∈ ts, ∀ c ∈ st.mentions t, c ∈ ts)
    (interned : ∀ t ∈ ts, t < st.size ∧ st.isReserved t = false) (ht : t ∈ ts) : st.Solid t := by
  intro u hu
  obtain ⟨hlt, hres⟩ := interned u (hu.inside (X := (· ∈ ts)) closed ht)
  have hcell : st.cells[u]? = some st.cells[u] := List.getElem?_eq_getElem hlt
  rw [isReserved, hcell] at hres
  cases hold : st.cells[u] with
  | interned node => exact ⟨node, hold ▸ hcell⟩
  | reserved body => simp [hold] at hres

theorem Solid.emptiesIn (h : st.Solid t) (X : TypeId → Prop) : EmptiesIn X st t := by
  refine ⟨h.lt_size, fun u hu hc => ?_⟩
  obtain ⟨node, hn⟩ := h u hu
  cases hc.symm.trans hn

/-- A type without parts is replaced if it is a variable itself, or not at all. -/
theorem unbound_of_leaf {form : Form} {params : Bindings} (hf : st.form? t = some form)
    (hm : form.mentions = []) (hi : ∀ name, form ≠ .infer name)
    (hp : ∀ name, form = .param name → params.get? name = none) : st.Unbound params t := by
  intro u hu
  rcases Relation.ReflTransGen.cases_head hu with rfl | ⟨c, hc, _⟩
  · rw [hf]
    exact ⟨fun name h => hi name (Option.some.inj h), fun name h => hp name (Option.some.inj h)⟩
  · rw [mentions_of_form hf, hm] at hc
    cases hc

/-- What is put together of parts of a kind is of that kind. -/
theorem Kind.build {P : Store → TypeId → Prop} (kind : Kind P) (hw : st.WellFormed) {form : Form}
    (hl : form.isLeaf = false) (hc : ∀ c ∈ form.mentions, P st c)
    (hrun : form.build.run st = (t, st)) :
    P st t := by
  have hrun : Action.run form.build st = (t, st) := hrun
  have hlt : ∀ c ∈ form.mentions, c < st.size := fun c hm => kind.lt_size (hc c hm)
  have given (h : Leads Later form.build st fun t st' => P st' t) : P st t := by
    have hanswer := h.2
    rw [hrun] at hanswer
    exact hanswer
  have made {y : Form} (h : Leads Later form.build st (Made y)) (hl : y.isLeaf = false)
      (hsub : ∀ c ∈ y.mentions, c ∈ form.mentions) : P st t := by
    have hmade := h.2
    rw [hrun] at hmade
    refine kind.built hw hmade.form (fun name he => ?_) fun c hm => hc c (hsub c hm)
    rw [he] at hl
    cases hl
  cases form with
  | intrinsic | literal | infer | param => cases hl
  | union members => exact given (kind.leads_mkUnion hw hc)
  | intersection members => exact given (kind.leads_mkIntersection hw hc)
  | object shape => exact made (leads_mkObject hw hlt) rfl fun _ h => h
  | array element =>
    exact made (leads_mkArray hw (hlt _ (by simp [Form.mentions]))) rfl fun _ h => h
  | tuple slots => exact made (leads_mkTuple hw hlt) rfl fun _ h => h
  | function signature => exact made (leads_mkFunction hw hlt) rfl fun _ h => h
  | constructor signature =>
    have hsub : ∀ c ∈ (Form.constructor
          { params := signature.params, result := signature.result }).mentions,
        c ∈ (Form.constructor signature).mentions := by
      intro c hm
      simp only [Form.mentions, Option.toList_none, List.nil_append, List.mem_append] at hm ⊢
      tauto
    exact made (leads_mkConstructor hw fun c hm => hlt c (hsub c hm)) rfl hsub
  | wrapper kind args => exact made (leads_mkWrapper hw hlt) rfl fun _ h => h

end Store

namespace Substitution

/-- What a type becomes by plain recursion, where all the types that come up are there. A type from
which nothing can be reached that is to be replaced stays as it is. An infer variable gives way to
its binding, or to `never`, and a bound parameter to its binding; any other type is put together
again of what its parts become. -/
inductive Becomes (st : Store) (infers params : Bindings) : TypeId → TypeId → Prop
  | same {t : TypeId} (h : st.Unbound params t) : Becomes st infers params t t
  | infer {t : TypeId} {name : String} (hf : st.form? t = some (.infer name)) :
    Becomes st infers params t ((infers.get? name).getD .never)
  | param {t a : TypeId} {name : String} (hf : st.form? t = some (.param name))
    (ha : params.get? name = some a) : Becomes st infers params t a
  | rebuilt {t a : TypeId} {form : Form} (f : TypeId → TypeId) (h : ¬ st.Unbound params t)
    (hf : st.form? t = some form) (hl : form.isLeaf = false)
    (parts : ∀ c ∈ form.mentions, Becomes st infers params c (f c))
    (run : (form.replace st f).build.run st = (a, st)) : Becomes st infers params t a

namespace Becomes

variable {st st' : Store} {infers params : Bindings} {t a b : TypeId}

/-- The recursion gives one type at most. -/
theorem unique (ha : Becomes st infers params t a) (hb : Becomes st infers params t b) : a = b := by
  induction ha generalizing b with
  | same h =>
    cases hb with
    | same => rfl
    | infer hf => exact absurd hf ((h _ .refl).1 _)
    | param hf hb => cases ((h _ .refl).2 _ hf).symm.trans hb
    | rebuilt _ hn => exact absurd h hn
  | infer hf =>
    cases hb with
    | same h => exact absurd hf ((h _ .refl).1 _)
    | infer hf' =>
      cases hf.symm.trans hf'
      rfl
    | param hf' => cases hf.symm.trans hf'
    | rebuilt _ _ hf' hl =>
      cases hf.symm.trans hf'
      cases hl
  | param hf ha =>
    cases hb with
    | same h => cases ((h _ .refl).2 _ hf).symm.trans ha
    | infer hf' => cases hf.symm.trans hf'
    | param hf' hb =>
      cases hf.symm.trans hf'
      exact Option.some.inj (ha.symm.trans hb)
    | rebuilt _ _ hf' hl =>
      cases hf.symm.trans hf'
      cases hl
  | rebuilt f hn hf hl _ run ih =>
    cases hb with
    | same h => exact absurd h hn
    | infer hf' =>
      cases hf.symm.trans hf'
      cases hl
    | param hf' =>
      cases hf.symm.trans hf'
      cases hl
    | rebuilt g _ hf' _ parts' run' =>
      cases hf.symm.trans hf'
      rw [Form.replace_congr fun c hc => ⟨(ih c hc (parts' c hc)).symm, rfl⟩] at run'
      exact congrArg Prod.fst (run.symm.trans run')

/-- The recursion gives the same in a wider store, if the type and all that its parts become read
the same. -/
theorem again (h : Becomes st infers params t a) (hw : st.Widens st') (ht : st.Steady st' t)
    (hread : ∀ c y, st.Reaches t c → Becomes st infers params c y → st.Steady st' y) :
    Becomes st' infers params t a := by
  induction h with
  | same h => exact .same ((ht.unbound params).mpr h)
  | infer hf => exact .infer ((ht _ .refl).2.trans hf)
  | param hf ha => exact .param ((ht _ .refl).2.trans hf) ha
  | @rebuilt t a form f hn hf hl parts run ih =>
    have hchild {c : TypeId} (hc : c ∈ form.mentions) : c ∈ st.mentions t :=
      Store.mentions_of_form hf ▸ hc
    have hpart {c : TypeId} (hc : c ∈ form.mentions) : st.Steady st' (f c) :=
      hread c (f c) (.single (hchild hc)) (parts c hc)
    refine .rebuilt f (fun h => hn ((ht.unbound params).mp h)) ((ht t .refl).2.trans hf) hl
      (fun c hc => ih c hc (ht.child (hchild hc)) fun d y hd => hread d y (.head (hchild hc) hd)) ?_
    rw [Form.replace_congr fun c hc => ⟨rfl, (hpart hc _ .refl).2⟩]
    have hsteady : ∀ c ∈ (form.replace st f).mentions, st.Steady st' c := by
      intro c hc
      obtain ⟨x, hx, rfl | hm⟩ := Form.mem_replace hc
      · exact hpart hx
      · exact (hpart hx).child hm
    have hrun := (form.replace st f).build_again (run ▸ hw) hsteady
    rw [run] at hrun
    exact hrun

/-- What a solid type becomes is of the kind that the bindings are of. -/
theorem ofKind {P : Store → TypeId → Prop} (kind : Store.Kind P) (hw : st.WellFormed)
    (hinfers : infers.AreOf P st) (hparams : params.AreOf P st) (solid : ∀ t, st.Solid t → P st t)
    (h : Becomes st infers params t a) (ht : st.Solid t) : P st a := by
  induction h with
  | same => exact solid _ ht
  | @infer t name =>
    cases hb : infers.get? name with
    | none => exact kind.intrinsic .never hw
    | some v => exact hinfers name v hb
  | @param t a name _ ha => exact hparams name a ha
  | @rebuilt t a form f _ hf hl parts run ih =>
    have hpart {c : TypeId} (hc : c ∈ form.mentions) : P st (f c) :=
      ih c hc (ht.child (Store.mentions_of_form hf ▸ hc))
    refine kind.build hw ?_ (fun c hc => ?_) run
    · cases form <;> first | rfl | cases hl
    · obtain ⟨x, hx, rfl | hm⟩ := Form.mem_replace hc
      · exact hpart hx
      · exact kind.child hw (hpart hx) hm

section Lasting

variable (hw : st.WellFormed) (ht : st.Solid t) (h : Becomes st infers params t a)

include hw ht h

/-- What a solid type becomes stays the same when the store is extended. -/
theorem later (he : st.Extends st') (hinfers : infers.AreOf (fun st t => t < st.size) st)
    (hparams : params.AreOf (fun st t => t < st.size) st) : Becomes st' infers params t a := by
  apply h.again he.widens (hw.steady he ht.lt_size)
  intro c y hc hy
  exact hw.steady he (hy.ofKind Store.kind_valid hw hinfers hparams (fun _ h => h.lt_size)
    (ht.reached hc))

/-- What a solid type becomes stays the same when a placeholder is given its body that cannot be
reached from what is bound. -/
theorem filled {u : TypeId} {body : Node} (hc : st.cells[u]? = some (.reserved none))
    (hinfers : infers.AreOf (Store.EmptiesIn (· ≠ u)) st)
    (hparams : params.AreOf (Store.EmptiesIn (· ≠ u)) st) :
    Becomes (st.filled u body) infers params t a := by
  have hsteady {y : TypeId} (hy : Store.EmptiesIn (· ≠ u) st y) : st.Steady (st.filled u body) y :=
    Store.steady_filled fun hr => hy.2 u hr hc rfl
  apply h.again (Store.widens_filled hc) (hsteady (ht.emptiesIn _))
  intro c y hc hy
  exact hsteady (hy.ofKind (Store.kind_emptiesIn _) hw hinfers hparams (fun _ h => h.emptiesIn _)
    (ht.reached hc))

end Lasting

end Becomes

theorem SlotsLike.parts {st : Store} {R : TypeId → TypeId → Prop} {xs ys : List Slot}
    (h : SlotsLike (SlotSpliced R st) xs ys) : ∀ c ∈ xs.map Slot.type, ∃ y, R c y := by
  obtain ⟨parts, hp, _⟩ := h
  intro c hc
  obtain ⟨slot, hm, rfl⟩ := List.mem_map.mp hc
  obtain ⟨_, _, t, ht, _⟩ := mem_right_of_forall₂ hp.flip hm
  exact ⟨t, ht⟩

/-- Every part was replaced, but for the receiver of a constructor, which has none. -/
theorem Rebuilt.parts {st : Store} {R : TypeId → TypeId → Prop} {infers params : Bindings}
    {t a : TypeId} {form : Form} (h : Rebuilt R st infers params t (some form) a)
    (hc : ∀ signature, form = .constructor signature → signature.receiver = none) :
    ∀ c ∈ form.mentions, ∃ y, R c y := by
  have hall {xs ys : List TypeId} (h : List.Forall₂ R xs ys) : ∀ c ∈ xs, ∃ y, R c y := by
    intro c hm
    obtain ⟨y, _, hy⟩ := mem_right_of_forall₂ h.flip hm
    exact ⟨y, hy⟩
  intro c hm
  cases h with
  | intrinsic | literal | infer | param => cases hm
  | built h =>
    cases h with
    | union h | intersection h => exact hall h c hm
    | @object x y hf hi =>
      rcases List.mem_append.mp hm with hm | hm
      · obtain ⟨field, hfield, rfl⟩ := List.mem_map.mp hm
        obtain ⟨z, _, hz, _⟩ := mem_right_of_forall₂ hf.flip hfield
        exact ⟨_, hz⟩
      · obtain ⟨index, hindex, rfl⟩ := List.mem_map.mp hm
        rw [Option.mem_toList] at hindex
        cases hy : y.index <;> simp only [hy, hindex, IndexLike] at hi
        exact ⟨_, hi.1⟩
    | array h =>
      obtain rfl := List.mem_singleton.mp hm
      exact ⟨_, h⟩
    | tuple h => exact h.parts c hm
    | @function x y hr hp h =>
      simp only [Form.mentions, List.mem_append, Option.mem_toList, List.mem_singleton] at hm
      rcases hm with (hm | hm) | rfl
      · cases hy : y.receiver <;> simp only [hy, hm, ReceiverLike] at hr
        exact ⟨_, hr⟩
      · exact hp.parts c hm
      · exact ⟨_, h⟩
    | @constructor x _ _ hp h =>
      simp only [Form.mentions, hc x rfl, List.mem_append, Option.toList_none,
        List.not_mem_nil, false_or, List.mem_singleton] at hm
      rcases hm with hm | rfl
      · exact hp.parts c hm
      · exact ⟨_, h⟩
    | wrapper h => exact hall h c hm

section Walk

variable {st₀ : Store} {root : TypeId} {infers params : Bindings}

def Plainly (st₀ : Store) (infers params : Bindings) (t a : TypeId) (overrun : Bool) (st : Store) :
    Prop :=
  a < st.size ∧ (overrun = false → t < st₀.size ∧
    (st₀.Solid t → st₀.Extends st ∧ st.WellFormed ∧ Becomes st infers params t a))

variable (hg₀ : Discipline.Good .typed st₀) (hroot : root < st₀.size)
variable (hinfers : infers.AreOf (fun st t => t < st.size) st₀)
variable (hparams : params.AreOf (fun st t => t < st.size) st₀)

include hg₀ hinfers hparams

theorem Plainly.later {st st' : Store} {t a : TypeId} {b b' : Bool} (hb : b = true → b' = true)
    (hs : Store.Later st st') (h : Plainly st₀ infers params t a b st) :
    Plainly st₀ infers params t a b' st' := by
  refine ⟨Nat.lt_of_lt_of_le h.1 hs.grown.size, fun hno => ?_⟩
  have hb : b = false := by
    cases b with
    | false => rfl
    | true => cases (hb rfl).symm.trans hno
  refine ⟨(h.2 hb).1, fun ht => ?_⟩
  obtain ⟨he, hw, hbecomes⟩ := (h.2 hb).2 ht
  have hsolid : st.Solid t := ht.widens hg₀.wellFormed.anchored he.widens
  exact ⟨he.trans hs.grown, hs.sound hw, hbecomes.later hw hsolid hs.grown
    (hinfers.later Store.kind_valid hg₀.wellFormed he)
    (hparams.later Store.kind_valid hg₀.wellFormed he)⟩

/-- A placeholder that came up during the walk cannot be reached from what is bound. -/
theorem Plainly.filled {st : Store} {t a u : TypeId} {b : Bool} {body : Node} (hu : st₀.size ≤ u)
    (hc : st.cells[u]? = some (.reserved none))
    (hsound : st.WellFormed → (st.filled u body).WellFormed)
    (h : Plainly st₀ infers params t a b st) :
    Plainly st₀ infers params t a b (st.filled u body) := by
  refine ⟨by rw [Store.filled_size]; exact h.1, fun hb => ⟨(h.2 hb).1, fun ht => ?_⟩⟩
  obtain ⟨he, hw, hbecomes⟩ := (h.2 hb).2 ht
  have hold (v : TypeId) (hv : v < st₀.size) : Store.EmptiesIn (· ≠ u) st v := by
    refine (Store.kind_emptiesIn _).later hg₀.wellFormed he ⟨hv, fun w hw _ hwu => ?_⟩
    exact Nat.not_lt_of_le hu (hwu ▸ hg₀.wellFormed.lt_size_of_reaches hv hw)
  exact ⟨he.filled hc hu, hsound hw,
    hbecomes.filled hw (ht.widens hg₀.wellFormed.anchored he.widens) hc
    (fun name v hv => hold v (hinfers name v hv)) (fun name v hv => hold v (hparams name v hv))⟩

include hroot

/-- Unless it hits a limit, a walk answers with what the solid types on its way become. -/
theorem rules_plainly : Rules st₀ root infers params (Plainly st₀ infers params) where
  valid h := h.1
  stable hb hs h := h.later hg₀ hinfers hparams hb hs
  limit hw := ⟨Store.never_lt_size hw, fun h => by cases h⟩
  unbound {t b st} hw he ht hu := by
    have hlt := hg₀.wellFormed.lt_size_of_reaches hroot ht
    refine ⟨Nat.lt_of_lt_of_le hlt he.size, fun _ => ⟨hlt, fun _ => ⟨he, hw, .same ?_⟩⟩⟩
    exact (hg₀.wellFormed.unbound_extends he hlt).mpr hu
  cycle {t b st} hw he hc := by
    have hlt := hg₀.wellFormed.lt_size_of_reaches hroot hc.reaches
    refine ⟨Nat.lt_of_lt_of_le hlt he.size, fun _ => ⟨hlt, fun hs => ?_⟩⟩
    exact absurd hc (hs.not_cycleEntry hg₀.wellFormed.anchored)
  rebuilt {t a b st} hw he ht hbound h := by
    have hlt := hg₀.wellFormed.lt_size_of_reaches hroot ht
    have hform := hg₀.wellFormed.form_extends he hlt
    have hunbound : st.Unbound params t ↔ st₀.Unbound params t :=
      hg₀.wellFormed.unbound_extends he hlt
    refine ⟨h.ofKind Store.kind_valid hw (fun _ _ h => h.2.1) hform
      (hinfers.later Store.kind_valid hg₀.wellFormed he)
      (hparams.later Store.kind_valid hg₀.wellFormed he)
      (fun _ => Nat.lt_of_lt_of_le hlt he.size), fun hb => ⟨hlt, fun hsolid => ⟨he, hw, ?_⟩⟩⟩
    cases hf : st₀.form? t with
    | none => exact absurd (Store.unbound_of_form hf) hbound
    | some form =>
      rw [hf] at h hform
      have hwhole (hl : form.isLeaf = false) : Becomes st infers params t a := by
        have hpart {c y : TypeId} (hy : c ∈ st₀.mentions t ∧ Plainly st₀ infers params c y b st) :
            Becomes st infers params c y := ((hy.2.2 hb).2 (hsolid.child hy.1)).2.2
        have hparts := h.parts fun signature hs => by
          subst hs
          exact (hg₀.tidy rfl).regular hf
        choose! f hplainly using hparts
        refine .rebuilt f (fun hu => hbound (hunbound.mp hu)) hform hl
          (fun c hc => hpart (hplainly c hc)) (h.reassembled hl fun x y hxy => ?_)
        exact (hpart (hplainly x (Store.mentions_of_form hf ▸ hxy.1))).unique (hpart hxy)
      cases h with
      | intrinsic | literal =>
        exact absurd (Store.unbound_of_leaf hf rfl (fun _ h => by cases h) fun _ h => by cases h)
          hbound
      | infer => exact .infer hform
      | @param name =>
        cases hp : params.get? name with
        | none =>
          refine absurd (Store.unbound_of_leaf hf rfl (fun _ h => by cases h) fun other h => ?_)
            hbound
          cases h
          exact hp
        | some v => exact .param hform hp
      | built h =>
        apply hwhole
        cases h <;> rfl
  empty {t u b st} hw ht hr hc := by
    refine ⟨(List.getElem?_eq_some_iff.mp hc).1, fun _ =>
      ⟨hg₀.wellFormed.lt_size_of_reaches hroot ht, fun hs => ?_⟩⟩
    cases hr.symm.trans hs.isReserved
  filled ht hr hu hc hk hplaced hlike h :=
    h.filled hg₀ hinfers hparams hu hc fun hw =>
      hw.filled hc hk hplaced (hlike.ofKind Store.kind_valid hw fun _ _ h => h.1)

end Walk

/-- How a substitution can have been used since its bindings were set: it was applied to types of
the store, and meanwhile the store was made use of in any way but to give a body to a placeholder
that can be reached from what is bound. -/
inductive Consulted (first : Substitution) (st : Store) : State → Prop
  | start : Consulted first st (first, st)
  | apply {s : State} (h : Consulted first st s) {t : TypeId} (ht : t < s.2.size) :
    Consulted first st (Action.run (apply t) s).2
  | operation {s : State} (op : Operation) (h : Consulted first st s) (ho : op.Accepted .typed s.2)
    (hb : ∀ p, op.target? = some p → ∀ name u,
      first.infers.get? name = some u ∨ first.params.get? name = some u → ¬ s.2.Reaches u p) :
    Consulted first st (s.1, op.after s.2)

structure Faithful (infers params : Bindings) (s : State) : Prop where
  good : Discipline.Good .typed s.2
  inferBound : infers.AreOf (fun st t => t < st.size) s.2
  paramBound : params.AreOf (fun st t => t < st.size) s.2
  visiting : s.1.guard.visiting = []
  memo {t a : TypeId} : s.1.memo.get? t = some a →
    Plainly s.2 infers params t a s.1.guard.overrun s.2
  infers : s.1.infers = infers
  params : s.1.params = params

section Faithful

variable {infers params : Bindings} {s : State}

/-- What the walk answered is so in its last store. -/
theorem Plainly.rebase {st₀ st : Store} {t a : TypeId} {b : Bool} (hg₀ : Discipline.Good .typed st₀)
    (h : Plainly st₀ infers params t a b st) (he : st₀.Extends st) (hw : st.WellFormed) :
    Plainly st infers params t a b st := by
  refine ⟨h.1, fun hb => ⟨Nat.lt_of_lt_of_le (h.2 hb).1 he.size, fun ht => ⟨.refl st, hw, ?_⟩⟩⟩
  exact ((h.2 hb).2 (hg₀.wellFormed.anchored.solid_of_widens he.widens (h.2 hb).1 ht)).2.2

namespace Faithful

variable (h : Faithful infers params s)

include h

theorem ready : Ready (Discipline.rules .typed) s := by
  have htyped : Discipline.typed ≠ .solid := fun h => by cases h
  refine ⟨h.good, ?_, ?_, fun hm => Operation.fit_of_lt htyped fun _ => (h.memo hm).1⟩
  · rw [h.infers]
    exact fun name u hu => Operation.fit_of_lt htyped fun _ => h.inferBound name u hu
  · rw [h.params]
    exact fun name u hu => Operation.fit_of_lt htyped fun _ => h.paramBound name u hu

/-- One call. -/
theorem apply {t : TypeId} (ht : t < s.2.size) :
    let r := Action.run (Substitution.apply t) s
    s.2.Extends r.2.2 ∧ Faithful infers params r.2 ∧
      Plainly r.2.2 infers params t r.1 r.2.1.guard.overrun r.2.2 := by
  intro r
  have htyped : Discipline.typed ≠ .solid := fun h => by cases h
  have hevolves := (runs_apply h.ready (Operation.fit_of_lt htyped fun _ => ht)).leads.1.store
  have hgood := hevolves.good h.good
  have hheld : Held s.2 infers params (Plainly s.2 infers params) s :=
    ⟨h.good.wellFormed, .refl s.2, h.infers, h.params, h.memo⟩
  obtain ⟨hwalk, hanswer⟩ :=
    (rules_plainly h.good ht h.inferBound h.paramBound).leads_applyHeld h.good.wellFormed ht
      hheld h.visiting
  have hafter := hwalk.held hheld
  have rebase {u a : TypeId} {b : Bool} (hp : Plainly s.2 infers params u a b r.2.2) :
      Plainly r.2.2 infers params u a b r.2.2 :=
    hp.rebase h.good hevolves.grown hgood.wellFormed
  refine ⟨hevolves.grown, ⟨hgood, ?_, ?_, hwalk.guard.visiting.trans h.visiting,
    fun hm => rebase (hafter.memo hm), hafter.infers, hafter.params⟩, rebase hanswer⟩
  · exact h.inferBound.later Store.kind_valid h.good.wellFormed hevolves.grown
  · exact h.paramBound.later Store.kind_valid h.good.wellFormed hevolves.grown

theorem evolves {st' : Store} (he : Discipline.Evolves .typed s.2 st') :
    Faithful infers params (s.1, st') where
  good := he.good h.good
  infers := h.infers
  params := h.params
  inferBound := h.inferBound.later Store.kind_valid h.good.wellFormed he.grown
  paramBound := h.paramBound.later Store.kind_valid h.good.wellFormed he.grown
  visiting := h.visiting
  memo hm := by
    have hlater := (h.memo hm).later h.good h.inferBound h.paramBound id
      ⟨he.grown, fun _ => (he.good h.good).wellFormed⟩
    exact hlater.rebase h.good he.grown (he.good h.good).wellFormed

theorem filled {u : TypeId} {body : Node} (hc : s.2.cells[u]? = some (.reserved none))
    (hg : Discipline.Good .typed (s.2.filled u body))
    (hinfers : ∀ name v, infers.get? name = some v → ¬ s.2.Reaches v u)
    (hparams : ∀ name v, params.get? name = some v → ¬ s.2.Reaches v u) :
    Faithful infers params (s.1, s.2.filled u body) := by
  have valid {v : TypeId} (hv : v < s.2.size) : v < (s.2.filled u body).size := by
    rw [Store.filled_size]
    exact hv
  refine ⟨hg, fun name v hv => valid (h.inferBound name v hv),
    fun name v hv => valid (h.paramBound name v hv),
    h.visiting, fun {t a} hm => ?_, h.infers, h.params⟩
  obtain ⟨ha, hp⟩ := h.memo hm
  refine ⟨valid ha, fun hb => ⟨valid (hp hb).1, fun ht => ⟨.refl _, hg.wellFormed, ?_⟩⟩⟩
  have hsolid : s.2.Solid t :=
    h.good.wellFormed.anchored.solid_of_widens (Store.widens_filled hc) (hp hb).1 ht
  refine ((hp hb).2 hsolid).2.2.filled h.good.wellFormed hsolid hc (fun name v hv => ?_)
    fun name v hv => ?_
  · exact ⟨h.inferBound name v hv, fun w hw _ hwu => hinfers name v hv (hwu ▸ hw)⟩
  · exact ⟨h.paramBound name v hv, fun w hw _ hwu => hparams name v hv (hwu ▸ hw)⟩

end Faithful

/-- Whatever happens between two calls, what is remembered of solid types is what they become. -/
theorem Consulted.faithful {first : Substitution} {st : Store} (hs : Consulted first st s)
    (h : Faithful first.infers first.params (first, st)) :
    Faithful first.infers first.params s := by
  induction hs with
  | start => exact h
  | apply _ ht ih => exact (ih.apply ht).2.1
  | @operation s op _ ho hb ih =>
    have hout := Operation.outcome (fun h => by cases h) ih.good ho
    have hgood := hout.good ih.good
    generalize op.after s.2 = st' at hout hgood ⊢
    cases hout with
    | evolved he _ => exact ih.evolves he
    | @defined st' u body he _ hu _ hc _ _ =>
      have hfree {name : String} {v : TypeId}
          (hv : first.infers.get? name = some v ∨ first.params.get? name = some v)
          (hlt : v < s.2.size) :
          ¬ st'.Reaches v u := by
        rw [ih.good.wellFormed.reaches_extends he.grown hlt]
        exact hb u hu name v hv
      exact (ih.evolves he).filled hc hgood (fun name v hv =>
        hfree (.inl hv) (ih.inferBound name v hv))
        fun name v hv => hfree (.inr hv) (ih.paramBound name v hv)

end Faithful

end Substitution

namespace Operation

open Substitution (apply start Consulted Becomes)

/-- Whatever a substitution was applied to before, once its bindings are set it puts for a solid
type what the plain recursion gives, if it has not hit a limit. -/
theorem apply_plain_recursion {ops : List Operation} (h : AllAccepted .typed .initial ops)
    (limits : Limits) {infers params : Bindings}
    (hinfers : infers.AreOf (fun st t => t < st.size) (afterAll .initial ops))
    (hparams : params.AreOf (fun st t => t < st.size) (afterAll .initial ops))
    {s : Substitution.State}
    (hs : Consulted { start limits with infers, params } (afterAll .initial ops) s) {t : TypeId}
    (ht : s.2.Solid t) :
    let r := Action.run (apply t) s
    r.2.1.guard.overrun = false → ∀ st', r.2.2.Supplemented st' →
      ∀ a, Becomes st' infers params t a ↔ a = r.1 := by
  intro r ho st' hst' a
  have hg := h.good
  have hfaithful := hs.faithful ⟨hg, hinfers, hparams, rfl, (fun hm => by cases hm), rfl, rfl⟩
  obtain ⟨hgrown, hafter, hplain⟩ := hfaithful.apply ht.lt_size
  have hevolves := hst'.evolves hafter.good
  have hlater := hplain.later hafter.good hafter.inferBound hafter.paramBound id
    ⟨hevolves.grown, fun _ => (hevolves.good hafter.good).wellFormed⟩
  have hbecomes :=
    ((hlater.2 ho).2 (ht.widens hfaithful.good.wellFormed.anchored hgrown.widens)).2.2
  constructor
  · exact fun ha => ha.unique hbecomes
  · rintro rfl
    exact hbecomes

/-- A variable that stands for the last elements of a tuple, and a tuple to put in its place. -/
def tailed : List Operation :=
  [.build (.infer "X"),
    .build (.tuple [{ type := .number }, { type := .boolean, optional := true }]),
    .build (.tuple [{ type := .string }, { type := 12, rest := true }])]

/-- The variable has been replaced before, and is remembered; its tuple takes the place of the rest
slot. -/
theorem apply_plain_recursion_spliced :
    AllAccepted .typed .initial tailed ∧
    let st := afterAll .initial tailed
    let infers : Bindings := Dict.empty.insert "X" 13
    let first : Substitution := { start with infers, params := .empty }
    let s := (Action.run (apply 12) (first, st)).2
    let r := Action.run (apply 14) s
    Consulted first st s ∧ s.2.Solid 14 ∧ r.2.1.guard.overrun = false ∧
      r.2.2.form? 15 = some (.tuple [{ type := .string }, { type := .number },
        { type := .boolean, optional := true }]) ∧
      ∀ a, Becomes r.2.2 infers .empty 14 a ↔ a = 15 := by
  have haccepted : AllAccepted .typed .initial tailed := allAccepted_of_builds (by decide +kernel)
  refine ⟨haccepted, ?_⟩
  intro st infers first s r
  have hbound : infers.AreOf (fun st t => t < st.size) st := by
    intro name t ht
    rw [Dict.get?_insert] at ht
    split at ht
    · cases ht
      decide +kernel
    · cases ht
  have hconsulted : Consulted first st s := Consulted.start.apply (by decide +kernel)
  have hsolid : s.2.Solid 14 :=
    Store.solid_of_closed [.number, .boolean, .string, 12, 13, 14] (by decide +kernel)
    (by decide +kernel) (by decide)
  have hlimit : r.2.1.guard.overrun = false := by decide +kernel
  have hanswer : r.1 = 15 := by decide +kernel
  refine ⟨hconsulted, hsolid, hlimit, by decide +kernel, fun a => ?_⟩
  rw [← hanswer]
  exact apply_plain_recursion haccepted .substitution hbound (fun _ _ h => by cases h) hconsulted
    hsolid hlimit _ (.refl _) a

/-- A variable that is put together with strings, and a placeholder. -/
def branded : List Operation :=
  [.build .reserve, .build (.infer "X"), .build (.intersection [13, .string])]

/-- What is remembered goes stale. An array is taken to mention nothing that is to be replaced if
its element type is not there yet, also when that turns out to be a variable. And strings that are a
placeholder, too, go on being remembered when the placeholder turns out to be an object, which no
string is. -/
theorem apply_recalls_foreign_defined :
    (let st := ((Store.mkArray 13).run .initial).2
     let infers : Bindings := Dict.empty.insert "X" .string
     let s := (Action.run (apply 12) ({ start with infers }, st)).2
     let known := ((Store.mkInfer "X").run s.2).2
     let r := Action.run (apply 12) (s.1, known)
     known.Solid 12 ∧ r.2.1.guard.overrun = false ∧ r.1 = 12 ∧
       Becomes ((Store.mkArray .string).run r.2.2).2 infers .empty 12 14) ∧
    let infers : Bindings := Dict.empty.insert "X" 12
    let s := (Action.run (apply 14) ({ start with infers }, afterAll .initial branded)).2
    let op : Operation := .build (.defineObject 12 { fields := [{ name := "b", type := .number }] })
    let r := Action.run (apply 14) (s.1, op.after s.2)
    AllAccepted .typed .initial branded ∧ op.Accepted .typed s.2 ∧ (op.after s.2).Solid 14 ∧
      r.2.1.guard.overrun = false ∧ r.1 = 15 ∧ Becomes r.2.2 infers .empty 14 .never := by
  constructor
  · intro st infers s known r
    have hsolid : known.Solid 12 :=
      Store.solid_of_closed [12, 13] (by decide +kernel) (by decide +kernel) (by decide)
    refine ⟨hsolid, by decide +kernel, by decide +kernel, ?_⟩
    generalize hst : ((Store.mkArray .string).run r.2.2).2 = last
    have harray : last.form? 12 = some (.array 13) := by
      subst hst
      decide +kernel
    have hinfer : last.form? 13 = some (.infer "X") := by
      subst hst
      decide +kernel
    refine .rebuilt (fun _ => .string) (fun hu => ?_) harray rfl (fun c hc => ?_) ?_
    · refine (hu 13 (.single ?_)).1 "X" hinfer
      rw [Store.mentions_of_form harray]
      exact List.mem_singleton_self _
    · obtain rfl := List.mem_singleton.mp hc
      exact .infer hinfer
    · show (Store.mkArray .string).run last = (14, last)
      subst hst
      exact Prod.ext (by decide +kernel) (by decide +kernel)
  · intro infers s op r
    have haccepted : op.Accepted .typed s.2 :=
      ⟨fun _ => ⟨by decide +kernel, fun _ h => by cases h⟩, fun _ => trivial⟩
    have hsolid : (op.after s.2).Solid 14 :=
      Store.solid_of_closed [.string, 13, 14] (by decide +kernel) (by decide +kernel) (by decide)
    refine ⟨allAccepted_of_builds (by decide +kernel), haccepted, hsolid,
      by decide +kernel, by decide +kernel, ?_⟩
    have hboth : r.2.2.form? 14 = some (.intersection [.string, 13]) := by decide +kernel
    have hinfer : r.2.2.form? 13 = some (.infer "X") := by decide +kernel
    have hstring : r.2.2.form? .string = some (.intrinsic .string) := by decide +kernel
    refine .rebuilt (fun c => if c = 13 then 12 else c) (fun hu => ?_) hboth rfl (fun c hc => ?_) ?_
    · refine (hu 13 (.single ?_)).1 "X" hinfer
      rw [Store.mentions_of_form hboth]
      decide
    · rcases List.mem_pair.mp hc with rfl | rfl
      · exact .same (Store.unbound_of_leaf hstring rfl (fun _ h => by cases h)
          fun _ h => by cases h)
      · exact .infer hinfer
    · show (Store.mkIntersection [.string, 12]).run r.2.2 = (.never, r.2.2)
      exact Prod.ext (by decide +kernel) (by decide +kernel)

end Operation

end TypeCalculus
