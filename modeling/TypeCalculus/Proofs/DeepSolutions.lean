import TypeCalculus.Proofs.Answering
import TypeCalculus.Proofs.Containers
import TypeCalculus.Proofs.DeepMapping
import TypeCalculus.Proofs.Images

namespace TypeCalculus

theorem Store.Joined.restrict {st : Store} {F G : TypeId → Prop} {m : TypeId} (h : st.Joined F m)
    (hm : G m) (hG : ∀ kind : Intrinsic, G kind.id → F kind.id) : st.Joined G m := by
  cases h with
  | any => exact .any hm
  | unknown ha => exact .unknown (fun h => ha (hG .any h)) hm
  | member ha hu _ hn hl =>
    refine .member (fun h => ha (hG .any h)) (fun h => hu (hG .unknown h)) hm hn fun value hv hp =>
      hl value hv ?_
    obtain ⟨kind, hk⟩ := TypeId.isIntrinsic_iff.mp value.primitive_plain.1
    rw [← hk] at hp ⊢
    exact hG kind hp

namespace Evaluator

open Store (Made)

theorem isMapped_eq (st : Store) (t : TypeId) : isMapped st t = st.isContainer t := by
  unfold isMapped Store.isContainer Store.form?
  cases st.lookup t with
  | none => rfl
  | some node => exact Store.form_isContainer st node

section Unites

variable (st : Store)

def Unites (P : TypeId → TypeId → Prop) (v w : TypeId) : Prop :=
  ∃ images, List.Forall₂ P (st.unionMembers v) images ∧ (Store.mkUnion images).run st = (w, st)

def Kin (x b : TypeId) : Prop :=
  if st.isContainer x then st.isContainer b = true else b = x ∨ b = .never

variable {st} (ht : st.Tidy) (ha : st.Anchored) {v : TypeId} {images : List TypeId}

theorem unionMembers_top (ht : st.Tidy) {t u : TypeId} (hu : u.isTop = true)
    (h : u ∈ st.unionMembers t) :
    st.unionMembers t = [u] := by
  have hu : u = .any ∨ u = .unknown := by simpa [TypeId.isTop] using hu
  rcases Store.unionMembers_cases ht t with ⟨_, he⟩ | ⟨_, he, _⟩ | ⟨_, _, he, hr⟩
  · rw [he] at h
    cases h
  · rw [he] at h ⊢
    rw [List.mem_singleton.mp h]
  · rw [he] at h
    obtain ⟨hany, hunknown, _⟩ := hr.plain h
    exact (hu.elim hany hunknown).elim

include ht ha

theorem Kin.unionMembers {x b : TypeId} (h : Kin st x b) (hx : x ∈ st.unionMembers v)
    (hb : b ≠ .never) :
    st.unionMembers b = [b] := by
  unfold Kin at h
  split at h
  · exact ha.founded.unionMembers_container h
  · rw [h.resolve_right hb]
    exact Store.unionMembers_of_mem ht (ht.wellFormed ha) hx

variable (hkin : List.Forall₂ (Kin st) (st.unionMembers v) images)

include hkin

/-- None of what becomes of the members is a union, so only `never` is lost. -/
theorem mem_flat_kin (m : TypeId) : m ∈ st.flat images ↔ m ∈ images ∧ m ≠ .never := by
  rw [Store.mem_flat]
  constructor
  · rintro ⟨b, hb, hm⟩
    have hne : b ≠ .never := by
      rintro rfl
      cases hm
    obtain ⟨x, hx, h⟩ := mem_right_of_forall₂ hkin hb
    rw [h.unionMembers ht ha hx hne] at hm
    obtain rfl := List.mem_singleton.mp hm
    exact ⟨hb, hne⟩
  · rintro ⟨hm, hne⟩
    obtain ⟨x, hx, h⟩ := mem_right_of_forall₂ hkin hm
    exact ⟨m, hm, by simp [h.unionMembers ht ha hx hne]⟩

/-- Nothing that becomes of the members is absorbed by the rest. -/
theorem joined_kin (m : TypeId) : st.Joined (· ∈ st.flat images) m ↔ m ∈ images ∧ m ≠ .never := by
  rw [← mem_flat_kin ht ha hkin]
  refine ⟨Store.Joined.mem, fun hm => ?_⟩
  have hold (kind : Intrinsic) (h : kind.id ∈ st.flat images) : kind.id ∈ st.unionMembers v := by
    obtain ⟨hmem, hne⟩ := (mem_flat_kin ht ha hkin _).mp h
    obtain ⟨y, hy, hkin⟩ := mem_right_of_forall₂ hkin hmem
    unfold Kin at hkin
    split at hkin
    · exact absurd rfl (ha.founded.ne_intrinsic hkin kind)
    · rwa [hkin.resolve_right hne]
  obtain ⟨hmem, hne⟩ := (mem_flat_kin ht ha hkin m).mp hm
  obtain ⟨x, hx, hxm⟩ := mem_right_of_forall₂ hkin hmem
  unfold Kin at hxm
  split at hxm
  · rename_i hc
    have hno (kind : Intrinsic) (htop : kind.id.isTop = true) : kind.id ∉ st.flat images := by
      intro h
      rw [unionMembers_top ht htop (hold kind h)] at hx
      exact ha.founded.ne_intrinsic hc kind (List.mem_singleton.mp hx)
    refine .member (hno .any rfl) (hno .unknown rfl) hm hne fun value hl => ?_
    rw [Store.isContainer, hl] at hxm
    cases hxm
  · obtain rfl := hxm.resolve_right hne
    exact ((Store.joined_unionMembers ht ha.founded v m).mpr hx).restrict hm hold

omit ht ha hkin in
/-- The union of what becomes of the members is determined by what becomes of each. -/
theorem Unites.unique {P P' : TypeId → TypeId → Prop} {w w' : TypeId} (h : Unites st P v w)
    (h' : Unites st P' v w') (hone : ∀ x ∈ st.unionMembers v, ∀ b c, P x b → P' x c → b = c) :
    w = w' := by
  obtain ⟨images, hall, hrun⟩ := h
  obtain ⟨others, hall', hrun'⟩ := h'
  rw [forall₂_unique hall hall' hone] at hrun
  exact congrArg Prod.fst (hrun.symm.trans hrun')

omit hkin in
/-- What becomes of the members in two steps, united at each, is what becomes of them in both. -/
theorem Unites.trans (hs : st.Shared) {P₁ P₂ P₃ : TypeId → TypeId → Prop} {w u : TypeId}
    (h₁ : Unites st P₁ v w) (h₂ : Unites st P₂ w u)
    (hfirst : ∀ x ∈ st.unionMembers v, ∀ b, P₁ x b → Kin st x b ∧ b < st.size)
    (hsecond : ∀ b ∈ st.unionMembers w, ∀ c, P₂ b c → c < st.size)
    (hone : ∀ b ∈ st.unionMembers w, ∀ c d, P₂ b c → P₂ b d → c = d)
    (hthen : ∀ x ∈ st.unionMembers v, ∀ b c, P₁ x b → b ≠ .never → P₂ b c → P₃ x c)
    (hnever : ∀ x ∈ st.unionMembers v, P₁ x .never → P₃ x .never) : Unites st P₃ v u := by
  have hw := ht.wellFormed ha
  obtain ⟨images, hall, hrun⟩ := h₁
  obtain ⟨others, hall', hrun'⟩ := h₂
  have hvalid : ∀ b ∈ images, b < st.size := fun b hb => by
    obtain ⟨x, hx, h⟩ := mem_right_of_forall₂ hall hb
    exact (hfirst x hx b h).2
  have hvalid' : ∀ c ∈ others, c < st.size := fun c hc => by
    obtain ⟨b, hb, h⟩ := mem_right_of_forall₂ hall' hc
    exact hsecond b hb c h
  have hkin : List.Forall₂ (Kin st) (st.unionMembers v) images :=
    forall₂_of_mem hall fun x hx b h => (hfirst x hx b h).1
  have hmembers (b : TypeId) : b ∈ st.unionMembers w ↔ b ∈ images ∧ b ≠ .never := by
    rw [Store.mem_unionMembers_mkUnion hw hvalid hrun, joined_kin ht ha hkin]
  -- one choice for each image, so that the same images are sent to the same type
  have hchoice (b : TypeId) : ∃ c, (b ∈ st.unionMembers w → c ∈ others ∧ P₂ b c) ∧
      (b = .never → c = .never) := by
    by_cases hb : b ∈ st.unionMembers w
    · obtain ⟨c, hc, h⟩ := mem_left_of_forall₂ hall' hb
      exact ⟨c, fun _ => ⟨hc, h⟩, fun hn => absurd hn ((hmembers b).mp hb).2⟩
    · exact ⟨.never, fun h => absurd h hb, fun _ => rfl⟩
  choose g hg hgnever using hchoice
  refine ⟨images.map g, ?_, Store.mkUnion_eq ht hs ha fun m => ?_⟩
  · have hboth : List.Forall₂ (fun x b => b ∈ images ∧ P₁ x b) (st.unionMembers v) images :=
      (forall₂_of_mem hall.flip fun b hb x h => ⟨hb, h⟩).flip
    rw [List.forall₂_map_right_iff]
    apply forall₂_of_mem hboth
    rintro x hx b ⟨hb, h⟩
    by_cases hn : b = .never
    · rw [hgnever b hn]
      exact hnever x hx (hn ▸ h)
    · exact hthen x hx b (g b) h hn (hg b ((hmembers b).mpr ⟨hb, hn⟩)).2
  · rw [Store.mem_unionMembers_mkUnion hw hvalid' hrun']
    apply Store.joined_congr
    intro m
    simp only [Store.mem_flat]
    constructor
    · rintro ⟨c, hc, hm⟩
      obtain ⟨b, hb, h⟩ := mem_right_of_forall₂ hall' hc
      rw [hone b hb c (g b) h (hg b hb).2] at hm
      exact ⟨g b, List.mem_map_of_mem ((hmembers b).mp hb).1, hm⟩
    · rintro ⟨c, hc, hm⟩
      obtain ⟨b, hb, rfl⟩ := List.mem_map.mp hc
      by_cases hn : b = .never
      · rw [hgnever b hn] at hm
        cases hm
      · exact ⟨g b, (hg b ((hmembers b).mpr ⟨hb, hn⟩)).1, hm⟩

end Unites

/-- What the relation says of solid types solves the equation, and is solid. -/
def Coherent (st : Store) (m : Mapping) (I : TypeId → TypeId → Prop) : Prop :=
  ∀ n a, st.Solid n → I n a → Solves m st st I n a ∧ st.Solid a

def DeepImage (st : Store) (m : Mapping) (t a : TypeId) : Prop :=
  ∃ I, Coherent st m I ∧ Unites st I t a

section Solves

variable {st : Store} {m : Mapping} {I : TypeId → TypeId → Prop} {n a : TypeId}

/-- What solves the equation is put together from the values, or is `never` where there is nothing
to map. -/
theorem Solves.mapped (hk : m.keys = .all) (h : Solves m st st I n a) :
    st.isContainer n = false ∧ a = .never ∨
      ∃ f y, st.form? n = some f ∧ Mapped m (ValueImage st st I) f y ∧ st.form? a = some y := by
  cases h with
  | object hn ha hf hi => exact .inr ⟨_, _, hn, .object ((filter_keys_all hk _).symm ▸ hf) hi, ha⟩
  | array hn ha h => exact .inr ⟨_, _, hn, .array hk h, ha⟩
  | tuple hn ha h => exact .inr ⟨_, _, hn, .tuple hk h, ha⟩
  | other hn ha => exact .inl ⟨isMapped_eq st n ▸ hn, ha⟩

theorem isContainer_of_form {f : Form} (h : st.form? n = some f) :
    st.isContainer n = f.isContainer := by
  rw [← isMapped_eq, isMapped, h]
  rfl

/-- A container becomes a container, and anything else `never`. -/
theorem Coherent.isContainer (hk : m.keys = .all) (h : Coherent st m I) (hn : st.Solid n)
    (hc : st.isContainer n = true) (hI : I n a) : st.isContainer a = true := by
  rcases (h n a hn hI).1.mapped hk with ⟨hno, _⟩ | ⟨f, y, _, hy, ha⟩
  · cases hc.symm.trans hno
  · rw [isContainer_of_form ha, hy.container]

theorem Coherent.eq_never (hk : m.keys = .all) (h : Coherent st m I) (hn : st.Solid n)
    (hc : ¬ st.isContainer n = true) (hI : I n a) : a = .never := by
  rcases (h n a hn hI).1.mapped hk with ⟨_, ha⟩ | ⟨f, y, hf, hy, _⟩
  · exact ha
  · rw [isContainer_of_form hf, hy.source] at hc
    exact absurd rfl hc

theorem image_of_container (hc : st.isContainer n = true) : Image st I n a ↔ I n a := by
  rw [Image, isMapped_eq, if_pos hc]

theorem image_of_other (hc : ¬ st.isContainer n = true) : Image st I n a ↔ a = n := by
  rw [Image, isMapped_eq, if_neg hc]

theorem Coherent.image_solid (h : Coherent st m I) (hn : st.Solid n) (hI : Image st I n a) :
    st.Solid a := by
  by_cases hc : st.isContainer n = true
  · exact (h n a hn ((image_of_container hc).mp hI)).2
  · rwa [(image_of_other hc).mp hI]

end Solves

section Unique

variable {st : Store} (hs : st.Shared) (ha : st.Anchored) {m : Mapping} (hk : m.keys = .all)
  {I I' : TypeId → TypeId → Prop} (h : Coherent st m I) (h' : Coherent st m I')

/-- The members of a value are smaller than the type that holds it. -/
theorem mem_value (ha : st.Anchored) {n v x : TypeId} {f : Form} (hn : st.Solid n)
    (hf : st.form? n = some f) (hv : v ∈ f.mentions) (hx : x ∈ st.unionMembers v) :
    st.Solid x ∧ x < n := by
  rw [← Store.mentions_of_form hf] at hv
  have hsolid := hn.child hv
  exact ⟨hsolid.members hx,
    Nat.lt_of_le_of_lt (Store.le_of_unionMembers ha hsolid.isReserved hx)
      (ha.below hn.isReserved hv)⟩

include hs ha hk h h'

/-- The equation has one solution: what becomes of a type follows from what becomes of smaller
ones. -/
theorem Coherent.unique {n a b : TypeId} (hn : st.Solid n) (hI : I n a) (hI' : I' n b) : a = b := by
  induction n using Nat.strong_induction_on generalizing a b with
  | _ n ih =>
    obtain ⟨hsolves, hsolid⟩ := h n a hn hI
    obtain ⟨hsolves', hsolid'⟩ := h' n b hn hI'
    rcases hsolves.mapped hk with ⟨hc, rfl⟩ | ⟨f, y, hf, hy, hform⟩ <;>
      rcases hsolves'.mapped hk with ⟨hc', rfl⟩ | ⟨g, z, hg, hz, hform'⟩
    · rfl
    · rw [isContainer_of_form hg, hz.source] at hc
      cases hc
    · rw [isContainer_of_form hf, hy.source] at hc'
      cases hc'
    · cases hf.symm.trans hg
      have hsame : y = z := by
        apply hy.unique hz
        intro v hv b c hb hc
        apply Unites.unique hb hc
        intro x hx p q hp hq
        obtain ⟨hsx, hlt⟩ := mem_value ha hn hf (Mapping.values_mentions hv) hx
        by_cases hcx : st.isContainer x = true
        · exact ih x hlt hsx ((image_of_container hcx).mp hp) ((image_of_container hcx).mp hq)
        · rw [(image_of_other hcx).mp hp, (image_of_other hcx).mp hq]
      exact hs.made_unique ha.placed ⟨hform, hsolid.isReserved⟩
        ⟨hsame ▸ hform', hsolid'.isReserved⟩

end Unique

/-- A deep mapping makes one type of a solid type, whoever works it out. -/
theorem DeepImage.unique {st : Store} (hs : st.Shared) (ha : st.Anchored) {m : Mapping}
    (hk : m.keys = .all) {t a b : TypeId} (ht : st.Solid t) (h : DeepImage st m t a)
    (h' : DeepImage st m t b) : a = b := by
  obtain ⟨I, hI, hunites⟩ := h
  obtain ⟨I', hI', hunites'⟩ := h'
  exact hunites.unique hunites' fun x hx _ _ => hI.unique hs ha hk hI' (ht.members hx)

section Widens

variable {st st' : Store} (ha : st.Anchored) (hl : st.Linked)

include ha hl

theorem runs_mkUnion_solid {images : List TypeId} (hsolid : ∀ b ∈ images, st.Solid b) :
    Runs (Discipline.Again .solid) (Discipline.Evolves .solid) (Store.mkUnion images) st
      fun w st' => Discipline.Fit .solid st' w :=
  Discipline.runs_mkUnion ⟨fun _ => ha, fun _ => hl, fun h => by cases h⟩ fun b hb =>
    (hsolid b hb).fit

theorem Unites.solid {P : TypeId → TypeId → Prop} {v w : TypeId} (h : Unites st P v w)
    (hP : ∀ x ∈ st.unionMembers v, ∀ b, P x b → st.Solid b) : st.Solid w := by
  obtain ⟨images, hall, hrun⟩ := h
  have hstart : Action.run (Store.mkUnion images) st = (w, st) := hrun
  have hfit := (runs_mkUnion_solid ha hl fun b hb => by
    obtain ⟨x, hx, hxb⟩ := mem_right_of_forall₂ hall hb
    exact hP x hx b hxb).leads.2
  rw [hstart] at hfit
  exact hfit.solid rfl

variable (hw : st.Widens st')

include hw

theorem Unites.widens {P P' : TypeId → TypeId → Prop} {v w : TypeId} (h : Unites st P v w)
    (hv : st.Solid v) (hP : ∀ x ∈ st.unionMembers v, ∀ b, P x b → P' x b ∧ st.Solid b) :
    Unites st' P' v w := by
  obtain ⟨images, hall, hrun⟩ := h
  have hstart : Action.run (Store.mkUnion images) st = (w, st) := hrun
  have hecho := (runs_mkUnion_solid ha hl fun b hb => by
    obtain ⟨x, hx, hxb⟩ := mem_right_of_forall₂ hall hb
    exact (hP x hx b hxb).2).echo st'
  rw [hstart] at hecho
  refine ⟨images, ?_, hecho (Discipline.Firm.again ⟨rfl, hw⟩)⟩
  rw [hv.unionMembers_widens ha hw]
  exact forall₂_of_mem hall fun x hx b h => (hP x hx b h).1

variable {m : Mapping} (hk : m.keys = .all) {I : TypeId → TypeId → Prop}

include hk

/-- A solution in one store is a solution in every wider one. -/
theorem Coherent.widens (h : Coherent st m I) : Coherent st' m fun n a => st.Solid n ∧ I n a := by
  rintro n a - ⟨hn, hI⟩
  obtain ⟨hsolves, hsolid⟩ := h n a hn hI
  have hcontainer {x : TypeId} (hx : st.Solid x) : st'.isContainer x = st.isContainer x := by
    rw [Store.isContainer, Store.isContainer, hx.lookup_widens hw]
  refine ⟨?_, hsolid.widens ha hw⟩
  rcases hsolves.mapped hk with ⟨hc, rfl⟩ | ⟨f, y, hf, hy, hform⟩
  · exact .other ((isMapped_eq st' n).trans ((hcontainer hn).trans hc)) rfl
  · refine Mapped.solves hk (f := f) ?_ ((hn.form_widens ha hw).trans hf)
      ((hsolid.form_widens ha hw).trans hform)
    apply hy.mono_values
    intro v hv w hvw
    have hvm : v ∈ st.mentions n := Store.mentions_of_form hf ▸ Mapping.values_mentions hv
    apply Unites.widens ha hl hw hvw (hn.child hvm)
    intro x hx b hb
    have hsx := (hn.child hvm).members hx
    refine ⟨?_, h.image_solid hsx hb⟩
    by_cases hcx : st.isContainer x = true
    · exact (image_of_container ((hcontainer hsx).trans hcx)).mpr
        ⟨hsx, (image_of_container hcx).mp hb⟩
    · exact (image_of_other (hcontainer hsx ▸ hcx)).mpr ((image_of_other hcx).mp hb)

theorem DeepImage.widens {t a : TypeId} (ht : st.Solid t) (h : DeepImage st m t a) :
    DeepImage st' m t a := by
  obtain ⟨I, hI, hunites⟩ := h
  refine ⟨_, hI.widens ha hl hw hk, hunites.widens ha hl hw ht fun x hx b hb => ?_⟩
  exact ⟨⟨ht.members hx, hb⟩, (hI x b (ht.members hx) hb).2⟩

end Widens

theorem DeepImage.solid {st : Store} (ha : st.Anchored) (hl : st.Linked) {m : Mapping}
    {t a : TypeId} (ht : st.Solid t) (h : DeepImage st m t a) : st.Solid a := by
  obtain ⟨I, hI, hunites⟩ := h
  exact hunites.solid ha hl fun x hx b hb => (hI x b (ht.members hx) hb).2

theorem forall₂_trans {α β γ : Type} {R : α → β → Prop} {S : β → γ → Prop} {T : α → γ → Prop}
    {xs : List α} {ys : List β} {zs : List γ} (h : List.Forall₂ R xs ys) (h' : List.Forall₂ S ys zs)
    (hT : ∀ x ∈ xs, ∀ y z, R x y → S y z → T x z) : List.Forall₂ T xs zs := by
  induction h generalizing zs with
  | nil =>
    cases h'
    exact .nil
  | @cons x y _ _ hxy _ ih =>
    cases h' with
    | cons hyz hrest =>
      exact .cons (hT x (by simp) y _ hxy hyz) (ih hrest fun w hw => hT w (by simp [hw]))

section Parts

variable {first second whole : Mapping} (hc : first.Chains second whole)
  {R₁ R₂ R₃ : TypeId → TypeId → Prop}

include hc

theorem FieldMapped.trans {x y z : Field} (h : FieldMapped first R₁ x y)
    (h' : FieldMapped second R₂ y z) (hR : R₁ x.type y.type → R₂ y.type z.type → R₃ x.type z.type) :
    FieldMapped whole R₃ x z := by
  obtain ⟨hr, hy⟩ := h
  obtain ⟨hr', hz⟩ := h'
  refine ⟨hR hr hr', ?_⟩
  rw [hc.optional, hc.readonly]
  rw [hy] at hz
  exact hz

theorem SlotMapped.trans {x y z : Slot} (h : SlotMapped first R₁ x y)
    (h' : SlotMapped second R₂ y z) (hR : R₁ x.type y.type → R₂ y.type z.type → R₃ x.type z.type) :
    SlotMapped whole R₃ x z := by
  obtain ⟨hr, hy⟩ := h
  obtain ⟨hr', hz⟩ := h'
  refine ⟨hR hr hr', ?_⟩
  rw [hc.optional]
  rw [hy] at hz
  rw [hz]
  cases x.rest <;> rfl

theorem IndexMapped.trans {x y z : Option IndexSignature} (h : IndexMapped first R₁ x y)
    (h' : IndexMapped second R₂ y z)
    (hR : ∀ i j k : IndexSignature, x = some i → R₁ i.type j.type → R₂ j.type k.type →
      R₃ i.type k.type) :
    IndexMapped whole R₃ x z := by
  cases x with
  | none =>
    cases y with
    | some _ => exact h.elim
    | none =>
      cases z with
      | some _ => exact h'.elim
      | none => trivial
  | some i =>
    cases y with
    | none =>
      cases z with
      | some _ => exact h'.elim
      | none =>
        have h : first.keys.keepsIndex = false := h
        show whole.keys.keepsIndex = false
        rw [hc.keepsIndex, h, Bool.false_and]
    | some j =>
      obtain ⟨hkeeps, hr, hreadonly⟩ := h
      cases z with
      | none =>
        have h' : second.keys.keepsIndex = false := h'
        show whole.keys.keepsIndex = false
        rw [hc.keepsIndex, h', Bool.and_false]
      | some k =>
        obtain ⟨hkeeps', hr', hreadonly'⟩ := h'
        refine ⟨by rw [hc.keepsIndex, hkeeps, hkeeps', Bool.and_self], hR i j k rfl hr hr', ?_⟩
        rw [hc.readonly, ← hreadonly, hreadonly']

/-- What two mappings make of a form one after the other, if all keys are kept. -/
theorem Mapped.trans (hk : whole.keys = .all) {f y z : Form} (h : Mapped first R₁ f y)
    (h' : Mapped second R₂ y z) (hR : ∀ v ∈ f.mentions, ∀ w u, R₁ v w → R₂ w u → R₃ v u) :
    Mapped whole R₃ f z := by
  obtain ⟨hk₁, hk₂⟩ := hc.all.mp hk
  cases h with
  | @object x y hf hi =>
    cases h' with
    | @object _ z hf' hi' =>
      rw [filter_keys_all hk₁] at hf
      rw [filter_keys_all hk₂] at hf'
      refine .object ?_ (hi.trans hc hi' fun i j k hx => ?_)
      · rw [filter_keys_all hk]
        refine forall₂_trans hf hf' fun field hm a b hfield hother => hfield.trans hc hother ?_
        exact hR _ (List.mem_append_left _ (List.mem_map_of_mem hm)) _ _
      · exact hR _ (List.mem_append_right _ (by simp [hx])) _ _
  | array _ h =>
    cases h' with
    | array _ h' => exact .array hk (hR _ (List.mem_singleton.mpr rfl) _ _ h h')
  | tuple _ h =>
    cases h' with
    | tuple _ h' =>
      refine .tuple hk (forall₂_trans h h' fun slot hm a b hslot hother => hslot.trans hc hother ?_)
      exact hR _ (List.mem_map_of_mem hm) _ _

end Parts

def Chained (st : Store) (I J : TypeId → TypeId → Prop) (n c : TypeId) : Prop :=
  if st.isContainer n then ∃ b, I n b ∧ J b c else c = .never

section Trans

variable {st : Store} (ht : st.Tidy) (hs : st.Shared) (ha : st.Anchored) (hl : st.Linked)
  {first second whole : Mapping} (hc : first.Chains second whole) (hk : whole.keys = .all)
  {I J : TypeId → TypeId → Prop} (hI : Coherent st first I) (hJ : Coherent st second J)

include ht hs ha hl hc hk hI hJ

/-- A value whose members became others, some of them the same, is united once more. -/
theorem ValueImage.trans {v w u : TypeId} (hv : st.Solid v) (h : ValueImage st st I v w)
    (h' : ValueImage st st J w u) : ValueImage st st (Chained st I J) v u := by
  obtain ⟨hk₁, hk₂⟩ := hc.all.mp hk
  have hw : st.Solid w := Unites.solid ha hl h fun x hx b hb => hI.image_solid (hv.members hx) hb
  refine Unites.trans ht ha hs h h' (fun x hx b hb => ?_) (fun b hb c hcb => ?_)
    (fun b hb c d hcb hdb => ?_)
    (fun x hx b c hb hn hbc => ?_) fun x hx hb => ?_
  · refine ⟨?_, (hI.image_solid (hv.members hx) hb).lt_size⟩
    by_cases hcx : st.isContainer x = true
    · rw [Kin, if_pos hcx]
      exact hI.isContainer hk₁ (hv.members hx) hcx ((image_of_container hcx).mp hb)
    · rw [Kin, if_neg hcx]
      exact .inl ((image_of_other hcx).mp hb)
  · exact (hJ.image_solid (hw.members hb) hcb).lt_size
  · by_cases hcb' : st.isContainer b = true
    · exact hJ.unique hs ha hk₂ hJ (hw.members hb) ((image_of_container hcb').mp hcb)
        ((image_of_container hcb').mp hdb)
    · rw [(image_of_other hcb').mp hcb, (image_of_other hcb').mp hdb]
  · by_cases hcx : st.isContainer x = true
    · have hxb := (image_of_container hcx).mp hb
      have hcb := hI.isContainer hk₁ (hv.members hx) hcx hxb
      rw [image_of_container hcx, Chained, if_pos hcx]
      exact ⟨b, hxb, (image_of_container hcb).mp hbc⟩
    · obtain rfl := (image_of_other hcx).mp hb
      exact (image_of_other hcx).mpr ((image_of_other hcx).mp hbc)
  · by_cases hcx : st.isContainer x = true
    · have hcn := hI.isContainer hk₁ (hv.members hx) hcx ((image_of_container hcx).mp hb)
      exact absurd rfl (ha.founded.ne_intrinsic hcn .never)
    · exact (image_of_other hcx).mpr ((image_of_other hcx).mp hb)

/-- One solution after another solves the equation for the mapping that sets the flags of both. -/
theorem Coherent.trans : Coherent st whole (Chained st I J) := by
  obtain ⟨hk₁, hk₂⟩ := hc.all.mp hk
  intro n c hn hchained
  unfold Chained at hchained
  split at hchained
  · rename_i hcn
    obtain ⟨b, hb, hbc⟩ := hchained
    have hcb := hI.isContainer hk₁ hn hcn hb
    obtain ⟨hsolves, hsb⟩ := hI n b hn hb
    obtain ⟨hsolves', hsc⟩ := hJ b c hsb hbc
    refine ⟨?_, hsc⟩
    rcases hsolves.mapped hk₁ with ⟨hno, _⟩ | ⟨f, y, hf, hy, hform⟩
    · cases hcn.symm.trans hno
    · rcases hsolves'.mapped hk₂ with ⟨hno, _⟩ | ⟨g, z, hg, hz, hform'⟩
      · cases hcb.symm.trans hno
      · cases hform.symm.trans hg
        refine Mapped.solves hk (hy.trans hc hk hz fun v hv w u hvw hwu => ?_) hf hform'
        have hsv : st.Solid v := hn.child (Store.mentions_of_form hf ▸ hv)
        exact ValueImage.trans ht hs ha hl hc hk hI hJ hsv hvw hwu
  · rename_i hcn
    rw [hchained]
    exact ⟨.other ((isMapped_eq st n).trans (by simpa using hcn)) rfl, ha.founded.solid .never⟩

end Trans

/-- What one deep mapping makes of what another made of a type is what a third one makes of it at
once. -/
theorem DeepImage.trans {st : Store} (ht : st.Tidy) (hs : st.Shared) (ha : st.Anchored)
    (hl : st.Linked) {first second whole : Mapping} (hc : first.Chains second whole)
    (hk : whole.keys = .all) {t a b : TypeId} (hsolid : st.Solid t) (h : DeepImage st first t a)
    (h' : DeepImage st second a b) :
    DeepImage st whole t b := by
  obtain ⟨hk₁, hk₂⟩ := hc.all.mp hk
  have hsa := h.solid ha hl hsolid
  obtain ⟨I, hI, hunites⟩ := h
  obtain ⟨J, hJ, hunites'⟩ := h'
  refine ⟨_, hI.trans ht hs ha hl hc hk hJ,
    Unites.trans ht ha hs hunites hunites' (fun x hx p hp => ?_)
    (fun p hp q hq => (hJ p q (hsa.members hp) hq).2.lt_size)
    (fun p hp q r hq hr => hJ.unique hs ha hk₂ hJ (hsa.members hp) hq hr)
    (fun x hx p q hp hn hq => ?_) fun x hx hp => ?_⟩
  · refine ⟨?_, (hI x p (hsolid.members hx) hp).2.lt_size⟩
    unfold Kin
    split
    · rename_i hcx
      exact hI.isContainer hk₁ (hsolid.members hx) hcx hp
    · rename_i hcx
      exact .inr (hI.eq_never hk₁ (hsolid.members hx) hcx hp)
  · by_cases hcx : st.isContainer x = true
    · rw [Chained, if_pos hcx]
      exact ⟨p, hp, hq⟩
    · exact absurd (hI.eq_never hk₁ (hsolid.members hx) hcx hp) hn
  · unfold Chained
    split
    · rename_i hcx
      have hcn := hI.isContainer hk₁ (hsolid.members hx) hcx hp
      exact absurd rfl (ha.founded.ne_intrinsic hcn .never)
    · rfl

end Evaluator

end TypeCalculus
