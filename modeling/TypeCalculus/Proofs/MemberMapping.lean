import TypeCalculus.Proofs.Containers
import TypeCalculus.Proofs.Images
import TypeCalculus.Proofs.Quiescence

namespace TypeCalculus

namespace Store

def Sends (st : Store) (m : Mapping) (x a : TypeId) : Prop :=
  (∃ g, st.image? m x = some g ∧ Made g a st) ∨ st.image? m x = none ∧ a = .never

section Later

variable {st st' : Store} (h : st.Neat) (hs : st.Extends st') {m : Mapping} {x : TypeId}

include h hs

theorem Neat.image (hx : x < st.size) : st'.image? m x = st.image? m x := by
  rw [image?, image?, h.form hs hx]

theorem Neat.sends (hx : x < st.size) {a : TypeId} (ha : st.Sends m x a) : st'.Sends m x a := by
  unfold Sends
  rw [h.image hs hx]
  refine ha.imp_left fun hmade => ?_
  obtain ⟨g, hg, hm⟩ := hmade
  exact ⟨g, hg, h.made hs hm⟩

end Later

theorem image_outside {st : Store} {m : Mapping} {x : TypeId} (hx : st.size ≤ x) :
    st.image? m x = none := by
  by_contra h
  obtain ⟨g, hg⟩ := Option.ne_none_iff_exists'.mp h
  exact absurd (lt_size_of_image hg) (Nat.not_lt_of_le hx)

theorem unionMembers_outside {st : Store} (hf : st.Founded) {t : TypeId} (ht : st.size ≤ t) :
    st.unionMembers t = [t] := by
  have hne : t ≠ .never := by
    rintro rfl
    exact absurd (hf.solid .never).lt_size (Nat.not_lt_of_le ht)
  unfold unionMembers
  rw [if_neg hne, lookup_of_cells rfl ht]

end Store

namespace Evaluator

open Store (Made mkUnion)

section Remake

variable (f : Option Form) {st : Store}

theorem evolves_remake (st : Store) : Discipline.Evolves .free st ((remake f).run st).2 := by
  cases f with
  | none => exact Evolution.refl st
  | some f => exact f.evolves_build st

theorem holds_remake {N : NodeInvariant} (h : N.Holds st) : N.Holds ((remake f).run st).2 := by
  cases f with
  | none => exact h
  | some f => exact h.build f

/-- Making the image of a type answers it rightly. -/
theorem sends_remake (h : st.Neat) {m : Mapping} {x : TypeId} (hx : x < st.size) :
    ((remake (st.image? m x)).run st).2.Sends m x ((remake (st.image? m x)).run st).1 := by
  have himage : ((remake (st.image? m x)).run st).2.image? m x = st.image? m x :=
    h.image (evolves_remake _ st).grown hx
  unfold Store.Sends
  rw [himage]
  cases hg : st.image? m x with
  | none => exact .inr ⟨rfl, rfl⟩
  | some g =>
    obtain ⟨f, _, hf⟩ := Option.bind_eq_some_iff.mp hg
    exact .inl ⟨g, rfl, Form.made_build (Form.isExact_of_isContainer (Mapping.isContainer_image hf))
      h.nodes.indexed⟩

end Remake

/-- An evaluator at rest recalls the image of a type, or makes it and remembers the answer. -/
theorem run_mapMember {s : State} (h : Resting s.1) (hl : s.1.limits.Positive) {id : MappingId}
    {m : Mapping} (hm : s.2.mappings.get? id = some m) (hk : m.value = .keep)
    (member : TypeId → EvalM TypeId) (x : TypeId) :
    let task : Task := ⟨.mapping id, x⟩
    let made := (remake (s.2.image? m x)).run s.2
    (∃ a, Recalls s.1 task a ∧ Action.run (mapMember id member x) s = (a, asked s task)) ∨
      ∃ e : Evaluator, Action.run (mapMember id member x) s = (made.1, e, made.2) ∧
        Recalls e task made.1 ∧ ∀ other, other ≠ task →
        e.memo.get? other = s.1.memo.get? other := by
  intro task made
  apply run_memoized h hl
  intro e _
  have hmapping : s.2.mapping id = m := by rw [Store.mapping, hm]; rfl
  have hread : Action.run (getThe Store : EvalM Store) (e, s.2) = (s.2, e, s.2) := rfl
  have hdeep : m.value ≠ .deep := by rw [hk]; exact fun h => by cases h
  rw [Action.run_bind, hread]
  simp only [hmapping, if_neg hdeep]
  exact run_mapStructure hk member x (e, s.2)

section Members

variable (base : Store) (subject : TypeId) (whole : Mapping) (P : TypeId → Prop)

def Wanted (g : Form) : Prop := ∃ x ∈ base.unionMembers subject, base.image? whole x = some g

/-- Nothing comes of the type but what is to come of the subject. -/
def Harmless (st : Store) (x : TypeId) : Prop :=
  ∀ g, st.image? whole x = some g → Wanted base subject whole g

variable {base subject whole}

def Accurate (m : Mapping) (x a : TypeId) (st : Store) : Prop :=
  x < st.size ∧ st.Sends m x a ∨ a = .never ∧ P x

variable (base subject whole)

structure Supplied (st : Store) : Prop where
  neat : st.Neat
  grown : base.Extends st
  fresh {t : TypeId} : base.size ≤ t → Harmless base subject whole st t

/-- The evaluator is at rest and remembers what is right, but for some types that were not there. -/
structure Poised (s : State) : Prop extends Supplied base subject whole s.2 where
  resting : Resting s.1
  positive : s.1.limits.Positive
  memo {id : MappingId} {x a : TypeId} : Recalls s.1 ⟨.mapping id, x⟩ a →
    ∃ m, s.2.mappings.get? id = some m ∧ Accurate P m x a s.2

structure Goes (s s' : State) : Prop where
  turns : Turns s s'
  kept : Poised base subject whole P s → Poised base subject whole P s'

variable {base subject whole P}

instance : Evolution (Goes base subject whole P) where
  refl s := ⟨Evolution.refl s, id⟩
  trans h h' := ⟨Evolution.trans h.turns h'.turns, fun hr => h'.kept (h.kept hr)⟩

theorem Accurate.mono {P' : TypeId → Prop} (hP : ∀ x, P x → P' x) {m : Mapping} {x a : TypeId}
    {st : Store} (h : Accurate P m x a st) : Accurate P' m x a st :=
  h.imp_right fun h => ⟨h.1, hP x h.2⟩

theorem Accurate.later {m : Mapping} {x a : TypeId} {st st' : Store} (h : Accurate P m x a st)
    (hn : st.Neat) (hs : st.Extends st') : Accurate P m x a st' :=
  h.imp_left fun h => ⟨Nat.lt_of_lt_of_le h.1 hs.size, hn.sends hs h.1 h.2⟩

/-- What a mapping that keeps the values answers with. -/
theorem Accurate.plain {m : Mapping} {x a : TypeId} {st : Store} (h : Accurate P m x a st) :
    st.Plain a := by
  rcases h with ⟨_, ⟨g, hg, hmade⟩ | ⟨_, rfl⟩⟩ | ⟨rfl, _⟩
  · obtain ⟨f, _, hf⟩ := Option.bind_eq_some_iff.mp hg
    exact .inr (hmade.isContainer (Mapping.isContainer_image hf))
  · exact .inl rfl
  · exact .inl rfl

/-- An answer for a type that was there is the image. -/
theorem Accurate.made {m : Mapping} {x a : TypeId} {st : Store} (h : Accurate P m x a st)
    (hx : ¬ P x) {g : Form} (hg : st.image? m x = some g) : Made g a st := by
  obtain ⟨_, hsends⟩ := h.resolve_right fun h => hx h.2
  rw [Store.Sends, hg] at hsends
  rcases hsends with ⟨g', he, hmade⟩ | ⟨he, _⟩
  · cases he
    exact hmade
  · cases he

theorem Accurate.eq_never {m : Mapping} {x a : TypeId} {st : Store} (h : Accurate P m x a st)
    (hx : st.size ≤ x) : a = .never :=
  (h.resolve_left fun h => absurd h.1 (Nat.not_lt_of_le hx)).1

theorem Accurate.made_of_ne {m : Mapping} {x a : TypeId} {st : Store} (h : Accurate P m x a st)
    (ha : a ≠ .never) : ∃ g, st.image? m x = some g ∧ Made g a st := by
  rcases h with ⟨_, h | ⟨_, hnever⟩⟩ | ⟨hnever, _⟩
  · exact h
  · exact absurd hnever ha
  · exact absurd hnever ha

namespace Poised

variable {s s' : State}

theorem mono {P' : TypeId → Prop} (hr : Poised base subject whole P s) (hP : ∀ x, P x → P' x) :
    Poised base subject whole P' s :=
  { hr with
    memo h := by
      obtain ⟨m, hm, hright⟩ := hr.memo h
      exact ⟨m, hm, hright.mono hP⟩ }

variable (hr : Poised base subject whole P s)

include hr

/-- The evaluator goes on remembering what is right, if what is added is harmless. -/
theorem later (ht : Turns s s') (nodes : NodeInvariant.normal.Holds s'.2)
    (hmemo : ∀ id x a, Recalls s'.1 ⟨.mapping id, x⟩ a → Recalls s.1 ⟨.mapping id, x⟩ a ∨
      ∃ m, s'.2.mappings.get? id = some m ∧ Accurate P m x a s'.2)
    (hnew : ∀ t, s.2.size ≤ t → Harmless base subject whole s'.2 t) :
    Poised base subject whole P s' where
  resting := hr.resting.later ht
  positive := ht.limits ▸ hr.positive
  neat := ⟨ht.store.reached hr.neat.reached, nodes⟩
  grown := hr.grown.trans ht.store.grown
  memo {id x a} h := by
    rcases hmemo id x a h with h | h
    · obtain ⟨m, hm, hright⟩ := hr.memo h
      exact ⟨m, ht.store.grown.mappings.get? hm, hright.later hr.neat ht.store.grown⟩
    · exact h
  fresh {t} hb := by
    rcases Nat.lt_or_ge t s.2.size with hlt | hge
    · intro g hg
      rw [hr.neat.image ht.store.grown hlt] at hg
      exact hr.fresh hb g hg
    · exact hnew t hge

theorem lifted {st' : Store} (hev : Discipline.Evolves .free s.2 st')
    (nodes : NodeInvariant.normal.Holds st')
    (hnew : ∀ t, s.2.size ≤ t → Harmless base subject whole st' t) :
    Poised base subject whole P (s.1, st') :=
  hr.later (.lift hev) nodes (fun _ _ _ h => .inl h) hnew

/-- What was harmless stays so. -/
theorem harmless (hs : Goes base subject whole P s s') {x : TypeId}
    (hx : Harmless base subject whole s.2 x) : Harmless base subject whole s'.2 x := by
  rcases Nat.lt_or_ge x s.2.size with hlt | hge
  · intro g hg
    rw [hr.neat.image hs.turns.store.grown hlt] at hg
    exact hx g hg
  · exact (hs.kept hr).fresh (Nat.le_trans hr.grown.size hge)

/-- The members of the subject are harmless, also those that come to be while others are mapped. -/
theorem harmless_member (hb : base.Neat) {x : TypeId} (hx : x ∈ base.unionMembers subject) :
    Harmless base subject whole s.2 x := by
  rcases Nat.lt_or_ge x base.size with hlt | hge
  · intro g hg
    rw [hb.image hr.grown hlt] at hg
    exact ⟨x, hx, hg⟩
  · exact hr.fresh hge

theorem outside {v : TypeId} (hv : s.2.size ≤ v) (hP : P v) :
    ∀ x ∈ s.2.unionMembers v, s.2.size ≤ x ∧ P x := by
  rw [Store.unionMembers_outside hr.neat.reached.founded hv]
  exact fun x hx => List.mem_singleton.mp hx ▸ ⟨hv, hP⟩

end Poised

section Member

variable {s : State} {id : MappingId} {m : Mapping}

abbrev mapOne (id : MappingId) (room : Nat) : TypeId → EvalM TypeId :=
  descend (mapMember id) (fun _ => return .never) room

theorem mapOne_eq (id : MappingId) (room : Nat) (x : TypeId) :
    ∃ member, mapOne id room x = mapMember id member x := by
  cases room with
  | zero => exact ⟨_, rfl⟩
  | succ room => exact ⟨_, rfl⟩

variable (hr : Poised base subject whole P s) (hm : s.2.mappings.get? id = some m)
  (hk : m.value = .keep)
  (hc : m.Chains whole whole) (room : Nat)

include hr hm hk hc

/-- The image of a harmless type is harmless. -/
theorem goes_mapOne {x : TypeId} (hx : x < s.2.size ∨ P x)
    (hharmless : Harmless base subject whole s.2 x) :
    Leads (Goes base subject whole P) (mapOne id room x) s fun a s' =>
      Accurate P m x a s'.2 ∧ (s.2.size ≤ x → s'.2 = s.2) := by
  obtain ⟨hturns, _⟩ := turns_descend hr.resting.toBalanced hr.resting.opened id room x
  obtain ⟨member, hmember⟩ := mapOne_eq id room x
  unfold Leads
  change Turns s (Action.run (mapOne id room x) s).2 at hturns
  rw [hmember] at hturns ⊢
  rcases run_mapMember hr.resting hr.positive hm hk member x with
    ⟨a, hrecalls, hrun⟩ | ⟨e, hrun, hmade, hother⟩
  · rw [hrun] at hturns ⊢
    obtain ⟨m', hm', hright⟩ := hr.memo hrecalls
    cases hm.symm.trans hm'
    refine ⟨⟨hturns, fun hr => hr.later hturns hr.neat.nodes (fun _ _ _ h => .inl h)
      fun t ht => ?_⟩,
      hright, fun _ => rfl⟩
    exact hr.fresh (Nat.le_trans hr.grown.size ht)
  · rw [hrun] at hturns ⊢
    have hright : Accurate P m x ((remake (s.2.image? m x)).run s.2).1
        ((remake (s.2.image? m x)).run s.2).2 := by
      rcases Nat.lt_or_ge x s.2.size with hlt | hge
      · have hgrown := (evolves_remake (s.2.image? m x) s.2).grown
        exact .inl ⟨Nat.lt_of_lt_of_le hlt hgrown.size, sends_remake hr.neat hlt⟩
      · rw [Store.image_outside hge]
        exact .inr ⟨rfl, hx.resolve_left (Nat.not_lt_of_le hge)⟩
    refine ⟨⟨hturns, fun hr => hr.later hturns (holds_remake _ hr.neat.nodes) (fun id' y b h => ?_)
      fun t ht g hg => ?_⟩, hright, fun hge => ?_⟩
    · by_cases htask : (⟨.mapping id', y⟩ : Task) = ⟨.mapping id, x⟩
      · cases htask
        cases h.symm.trans hmade
        exact .inr ⟨m, hturns.store.grown.mappings.get? hm, hright⟩
      · exact .inl ((hother _ htask).symm.trans h)
    · -- what is new is the image of `x`, of which the whole mapping makes what it makes of `x`
      obtain ⟨f', hf', hg'⟩ := Option.bind_eq_some_iff.mp hg
      cases himage : s.2.image? m x with
      | none =>
        rw [himage] at hf'
        exact absurd (Store.lt_size_of_form hf') (Nat.not_lt_of_le ht)
      | some image =>
        rw [himage] at hf'
        obtain ⟨f, hf, hfm⟩ := Option.bind_eq_some_iff.mp himage
        cases Store.form_build_new hr.neat.reached (Mapping.isContainer_image hfm) ht hf'
        apply hharmless
        rw [Store.image?_of_form hf, ← hc.image_bind, hfm]
        exact hg'
    · rw [Store.image_outside hge]
      rfl

/-- All members are mapped that are there, or that may be missing. -/
theorem goes_mapAll {xs : List TypeId} (hx : ∀ x ∈ xs, x < s.2.size ∨ P x)
    (hharmless : ∀ x ∈ xs, Harmless base subject whole s.2 x) :
    Leads (Goes base subject whole P) (xs.mapM (mapOne id room)) s fun ys s' =>
      List.Forall₂ (fun x y => Accurate P m x y s'.2) xs ys := by
  apply Leads.mapM
  · intro x y s₁ s₂ h₁ h₂ h
    exact h.later (h₁.kept hr).neat h₂.turns.store.grown
  · intro x hmem s' hs
    have hgrown := hs.turns.store.grown
    apply (goes_mapOne (hs.kept hr) (hgrown.mappings.get? hm) hk hc room
      ((hx x hmem).imp_left fun h => Nat.lt_of_lt_of_le h hgrown.size)
      (hr.harmless hs (hharmless x hmem))).mono
    exact fun _ _ _ h => h.1

/-- Members that are not there change nothing. -/
theorem goes_outside {xs : List TypeId} (hx : ∀ x ∈ xs, s.2.size ≤ x ∧ P x) :
    Leads (Goes base subject whole P) (xs.mapM (mapOne id room)) s fun ys s' =>
      s'.2 = s.2 ∧ List.Forall₂ (fun x y => Accurate P m x y s'.2) xs ys := by
  induction xs generalizing s with
  | nil =>
    rw [List.mapM_nil]
    exact Leads.pure ⟨rfl, .nil⟩
  | cons x xs ih =>
    obtain ⟨hout, hP⟩ := hx x List.mem_cons_self
    rw [List.mapM_cons]
    apply (goes_mapOne hr hm hk hc room (.inr hP) (hr.fresh (Nat.le_trans hr.grown.size hout))).bind
    rintro y s₁ h₁ ⟨hy, hsame⟩
    have hsame := hsame hout
    have hrest : ∀ x ∈ xs, s₁.2.size ≤ x ∧ P x := by
      rw [hsame]
      exact fun x hmem => hx x (List.mem_cons_of_mem _ hmem)
    apply (ih (h₁.kept hr) (hsame ▸ hm) hrest).bind
    rintro ys s₂ _ ⟨hsame', hys⟩
    refine Leads.pure ⟨hsame'.trans hsame, .cons ?_ hys⟩
    rw [hsame']
    exact hy

/-- Members in ascending order. Once one of them is not there, none of the others is; so a type that
was not found is outside of the store to the end. -/
theorem turns_ascending (hnone : ∀ x, ¬ P x) {xs : List TypeId} (hxs : xs.Pairwise (· < ·))
    (hharmless : ∀ x ∈ xs, Harmless base subject whole s.2 x) :
    Leads Turns (xs.mapM (mapOne id room)) s fun ys s' =>
      Poised base subject whole (s'.2.size ≤ ·) s' ∧
        List.Forall₂ (fun x y => Accurate (s'.2.size ≤ ·) m x y s'.2) xs ys := by
  induction xs generalizing s with
  | nil =>
    rw [List.mapM_nil]
    exact Leads.pure ⟨hr.mono fun x hx => absurd hx (hnone x), .nil⟩
  | cons x xs ih =>
    obtain ⟨habove, hsorted⟩ := List.pairwise_cons.mp hxs
    rcases Nat.lt_or_ge x s.2.size with hlt | hge
    · obtain ⟨hgoes, hright, _⟩ :=
        goes_mapOne hr hm hk hc room (.inl hlt) (hharmless x List.mem_cons_self)
      have hfirst : Leads Turns (mapOne id room x) s fun a s' =>
          Goes base subject whole P s s' ∧ Accurate P m x a s'.2 := ⟨hgoes.turns, hgoes, hright⟩
      rw [List.mapM_cons]
      apply hfirst.bind
      rintro y s₁ h₁ ⟨hs₁, hy⟩
      have hr₁ := hs₁.kept hr
      apply (ih hr₁ (h₁.store.grown.mappings.get? hm) hsorted fun x hmem =>
        hr.harmless hs₁ (hharmless x (List.mem_cons_of_mem _ hmem))).bind
      rintro ys s₂ h₂ ⟨hr₂, hys⟩
      have hy₂ := hy.later hr₁.neat h₂.store.grown
      exact Leads.pure ⟨hr₂, .cons (hy₂.mono fun x hx => absurd hx (hnone x)) hys⟩
    · have hout : ∀ y ∈ x :: xs, s.2.size ≤ y ∧ s.2.size ≤ y := by
        intro y hy
        have hle : s.2.size ≤ y := by
          rcases List.mem_cons.mp hy with rfl | hy
          · exact hge
          · exact Nat.le_trans hge (Nat.le_of_lt (habove y hy))
        exact ⟨hle, hle⟩
      have hr' : Poised base subject whole (s.2.size ≤ ·) s :=
        hr.mono fun x hx => absurd hx (hnone x)
      obtain ⟨hgoes, hsame, hys⟩ := goes_outside hr' hm hk hc room hout
      refine ⟨hgoes.turns, ?_⟩
      rw [← hsame] at hys
      have hpoised := hgoes.kept hr'
      rw [← hsame] at hpoised
      exact ⟨hpoised, hys⟩

end Member

/-- Uniting plain answers. -/
theorem goes_mkUnion {s : State} (types : List TypeId) :
    Leads (Goes base subject whole P) (liftM (mkUnion types) : EvalM TypeId) s fun a s' =>
      (mkUnion types).run s.2 = (a, s'.2) := by
  have hev := Form.evolves_build (.union types) s.2
  refine leads_lift ⟨.lift hev, fun hr => ?_⟩ rfl
  refine hr.lifted hev (hr.neat.nodes.mkUnion types) fun t ht g hg => ?_
  obtain ⟨f, hf, hfg⟩ := Option.bind_eq_some_iff.mp hg
  obtain ⟨node, hl, rfl⟩ := Store.lookup_of_form hf
  obtain ⟨id, rfl⟩ := Store.lookup_mkUnion_new ht hl
  cases hfg

inductive Applies (st : Store) (m : Mapping) : (TypeId → EvalM TypeId) → Prop
  | held {id : MappingId} (h : st.mappings.get? id = some m) : Applies st m (applyMapping id)
  | anew : Applies st m (mapWith m)

theorem Applies.later {st st' : Store} {m : Mapping} {act : TypeId → EvalM TypeId}
    (h : Applies st m act) (hs : st.Extends st') : Applies st' m act := by
  cases h with
  | held h => exact .held (hs.mappings.get? h)
  | anew => exact .anew

/-- Applying a mapping is distributing it over the members, once it is there. -/
theorem Applies.run {s : State} {m : Mapping} {act : TypeId → EvalM TypeId} (h : Applies s.2 m act)
    (hi : s.2.Indexed) (v : TypeId) :
    ∃ (id : MappingId) (st₁ : Store), st₁.mappings.get? id = some m ∧
      st₁ = { s.2 with mappings := st₁.mappings } ∧ Discipline.Evolves .free s.2 st₁ ∧
      Action.run (act v) s = Action.run (Store.distribute v (mapOne id s.1.limits.depth))
        (s.1, st₁) := by
  cases h with
  | @held id h => exact ⟨id, s.2, h, rfl, Evolution.refl s.2, rfl⟩
  | anew =>
    have hinterned : Leads (Discipline.Evolves .free) (Store.internMapping m) s.2 _ :=
      Discipline.leads_internMapping fun h => absurd rfl h
    exact ⟨_, _, hinterned.2 (hinterned.1.grown.indexed.mpr hi), rfl, hinterned.1, rfl⟩

/-- Distributing is mapping the members and uniting the answers, which are plain. -/
theorem run_distribute {s : State} {v : TypeId} {f : TypeId → EvalM TypeId}
    (hf : (Action.run ((s.2.unionMembers v).mapM f) s).2.2.Founded)
    (hp : ∀ y ∈ (Action.run ((s.2.unionMembers v).mapM f) s).1,
      (Action.run ((s.2.unionMembers v).mapM f) s).2.2.Plain y) :
    Action.run (Store.distribute v f) s =
      Action.run ((s.2.unionMembers v).mapM f >>=
        fun ys => (liftM (mkUnion ys) : EvalM TypeId)) s := by
  have hread : Action.run (liftM (get : StoreM Store) : EvalM Store) s = (s.2, s) := rfl
  unfold Store.distribute
  rw [Action.run_bind, hread]
  rcases hm : s.2.unionMembers v with _ | ⟨x, _ | ⟨y, rest⟩⟩
  · rw [List.mapM_nil, pure_bind]
    rfl
  · have hone : Action.run ([x].mapM f) s = ([(Action.run (f x) s).1], (Action.run (f x) s).2) := by
      rw [List.mapM_cons, Action.run_bind]
      rfl
    rw [hm, hone] at hf hp
    rw [Action.run_bind, hone]
    show Action.run (f x) s = _
    generalize Action.run (f x) s = r at hf hp ⊢
    have hself := Store.mkUnion_plain_self hf (hp _ (List.mem_singleton.mpr rfl))
    show r = (((mkUnion [r.1]).run r.2.2).1, r.2.1, ((mkUnion [r.1]).run r.2.2).2)
    rw [hself]
  · rfl

variable (base subject whole P) in
structure Passed (m : Mapping) (xs ys : List TypeId) (s : State) : Prop where
  poised : Poised base subject whole P s
  answers : List.Forall₂ (fun x y => Accurate P m x y s.2) xs ys

section Applied

variable {s : State} {m : Mapping} {act : TypeId → EvalM TypeId}

section Passed

variable {xs ys : List TypeId} (h : Passed base subject whole P m xs ys s)

include h

theorem Passed.answer {x : TypeId} (hx : x ∈ xs) : ∃ y ∈ ys, Accurate P m x y s.2 :=
  mem_right_of_forall₂ h.answers.flip hx

theorem Passed.source {y : TypeId} (hy : y ∈ ys) : ∃ x ∈ xs, Accurate P m x y s.2 :=
  mem_right_of_forall₂ h.answers hy

theorem Passed.plain : ∀ y ∈ ys, s.2.Plain y := by
  intro y hy
  obtain ⟨x, _, hx⟩ := h.source hy
  exact hx.plain

end Passed

/-- Uniting the answers takes nothing from them. -/
theorem Passed.united {xs ys : List TypeId} {s' : State} {a : TypeId}
    (h : Passed base subject whole P m xs ys s)
    (hrun : Action.run (liftM (mkUnion ys) : EvalM TypeId) s = (a, s')) :
    Passed base subject whole P m xs ys s' ∧ (mkUnion ys).run s'.2 = (a, s'.2) := by
  have hunion : Leads (Goes base subject whole P) (liftM (mkUnion ys) : EvalM TypeId) s fun a s' =>
      (mkUnion ys).run s.2 = (a, s'.2) := goes_mkUnion ys
  unfold Leads at hunion
  rw [hrun] at hunion
  obtain ⟨hgoes, hrun⟩ := hunion
  have hagain := Store.repeats_mkUnion_plain h.poised.neat.reached.founded h.plain
  rw [Store.Repeats, hrun] at hagain
  refine ⟨⟨hgoes.kept h.poised, ?_⟩, hagain _ (Store.Extends.refl _).grows⟩
  exact h.answers.imp fun _ _ h' => h'.later h.poised.neat hgoes.turns.store.grown

/-- A mapping is applied by answering to the members and uniting the answers. -/
theorem Applies.leads (h : Applies s.2 m act) (hi : s.2.Indexed) (v : TypeId)
    {R : List TypeId → State → Prop}
    (hmap : ∀ id s₁, Goes base subject whole P s s₁ → s₁.2.size = s.2.size →
      s₁.2.mappings.get? id = some m →
      Leads Turns ((s.2.unionMembers v).mapM (mapOne id s₁.1.limits.depth)) s₁ R)
    (hplain : ∀ ys s₂, R ys s₂ → s₂.2.Founded ∧ ∀ y ∈ ys, s₂.2.Plain y) :
    Leads Turns (act v) s fun a s' =>
      ∃ ys s₂, R ys s₂ ∧ Action.run (liftM (mkUnion ys) : EvalM TypeId) s₂ = (a, s') := by
  obtain ⟨id, st₁, hm, hst₁, hev, hrun⟩ := h.run hi v
  have hmembers : st₁.unionMembers v = s.2.unionMembers v := by
    rw [hst₁]
    rfl
  have hsize : st₁.size = s.2.size := by
    rw [hst₁]
    rfl
  have hgoes : Goes base subject whole P s (s.1, st₁) := by
    refine ⟨.lift hev, fun hr => hr.lifted hev (hr.neat.nodes.ofTables hev.grown ?_)
      fun t ht g hg => ?_⟩
    · rw [hst₁]
    · rw [Store.image_outside (hsize ▸ ht)] at hg
      cases hg
  have hmap := hmap id (s.1, st₁) hgoes hsize hm
  rw [← hmembers] at hmap
  obtain ⟨hfounded, hplain⟩ := hplain _ _ hmap.2
  have hturns (ys : List TypeId) (s₂ : State) :
      Leads Turns (liftM (mkUnion ys) : EvalM TypeId) s₂ fun _ _ => True :=
    leads_lift (.lift (Form.evolves_build (.union ys) s₂.2)) trivial
  have hdistribute := run_distribute (s := (s.1, st₁)) (v := v) (f := mapOne id s.1.limits.depth)
    hfounded hplain
  unfold Leads
  rw [hrun, hdistribute, Action.run_bind]
  exact ⟨Evolution.trans hgoes.turns (Evolution.trans hmap.1 (hturns _ _).1), _, _, hmap.2, rfl⟩

section Keeping

variable (h : Applies s.2 m act) (hr : Poised base subject whole P s) (hk : m.value = .keep)
  (hc : m.Chains whole whole) {v : TypeId}

include h hr hk hc

/-- Members that are there, or that may be missing. -/
theorem Applies.goes (hx : ∀ x ∈ s.2.unionMembers v, x < s.2.size ∨ P x)
    (hharmless : ∀ x ∈ s.2.unionMembers v, Harmless base subject whole s.2 x) :
    Leads Turns (act v) s fun a s' => ∃ ys,
      Passed base subject whole P m (s.2.unionMembers v) ys s' ∧
      (mkUnion ys).run s'.2 = (a, s'.2) := by
  have hmap (id : MappingId) (s₁ : State) (h₁ : Goes base subject whole P s s₁)
      (hsize : s₁.2.size = s.2.size)
      (hm : s₁.2.mappings.get? id = some m) :
      Leads Turns ((s.2.unionMembers v).mapM (mapOne id s₁.1.limits.depth)) s₁
        (Passed base subject whole P m (s.2.unionMembers v)) := by
    obtain ⟨hgoes, hall⟩ := goes_mapAll (h₁.kept hr) hm hk hc s₁.1.limits.depth (hsize ▸ hx)
      fun x hmem => hr.harmless h₁ (hharmless x hmem)
    exact ⟨hgoes.turns, hgoes.kept (h₁.kept hr), hall⟩
  apply (h.leads hr.neat.nodes.indexed v hmap fun ys s₂ h =>
    ⟨h.poised.neat.reached.founded, h.plain⟩).mono
  rintro a s' _ ⟨ys, s₂, hpassed, hrun⟩
  exact ⟨ys, hpassed.united hrun⟩

/-- Members that may be missing, when all that is remembered is right. -/
theorem Applies.ascends (hnone : ∀ x, ¬ P x)
    (hharmless : ∀ x ∈ s.2.unionMembers v, Harmless base subject whole s.2 x) :
    Leads Turns (act v) s fun a s' => ∃ n ys, base.size ≤ n ∧ (∀ y ∈ ys, y < n) ∧
      Passed base subject whole (n ≤ ·) m (s.2.unionMembers v) ys s' ∧
      (mkUnion ys).run s'.2 = (a, s'.2) := by
  have hmap (id : MappingId) (s₁ : State) (h₁ : Goes base subject whole P s s₁)
      (_ : s₁.2.size = s.2.size)
      (hm : s₁.2.mappings.get? id = some m) :
      Leads Turns ((s.2.unionMembers v).mapM (mapOne id s₁.1.limits.depth)) s₁ fun ys s₂ =>
        Passed base subject whole (s₂.2.size ≤ ·) m (s.2.unionMembers v) ys s₂ := by
    obtain ⟨hturns, hr₂, hall⟩ := turns_ascending (h₁.kept hr) hm hk hc s₁.1.limits.depth hnone
      (hr.neat.pairwise_unionMembers v) fun x hmem => hr.harmless h₁ (hharmless x hmem)
    exact ⟨hturns, hr₂, hall⟩
  apply (h.leads hr.neat.nodes.indexed v hmap fun ys s₂ h =>
    ⟨h.poised.neat.reached.founded, h.plain⟩).mono
  rintro a s' _ ⟨ys, s₂, hpassed, hrun⟩
  refine ⟨s₂.2.size, ys, hpassed.poised.grown.size, fun y hy => ?_, hpassed.united hrun⟩
  exact hpassed.poised.neat.reached.founded.lt_size_of_plain (hpassed.plain y hy)

/-- A type of which nothing is there. -/
theorem Applies.nothing (hx : ∀ x ∈ s.2.unionMembers v, s.2.size ≤ x ∧ P x) :
    Leads Turns (act v) s fun a s' =>
      a = .never ∧ s'.2.size = s.2.size ∧ Poised base subject whole P s' := by
  have hmap (id : MappingId) (s₁ : State) (h₁ : Goes base subject whole P s s₁)
      (hsize : s₁.2.size = s.2.size)
      (hm : s₁.2.mappings.get? id = some m) :
      Leads Turns ((s.2.unionMembers v).mapM (mapOne id s₁.1.limits.depth)) s₁ fun ys s₂ =>
        Poised base subject whole P s₂ ∧ s₂.2.size = s.2.size ∧ ∀ y ∈ ys, y = .never := by
    obtain ⟨hgoes, hsame, hall⟩ := goes_outside (h₁.kept hr) hm hk hc s₁.1.limits.depth (hsize ▸ hx)
    refine ⟨hgoes.turns, hgoes.kept (h₁.kept hr), hsame ▸ hsize, fun y hy => ?_⟩
    obtain ⟨x, hmem, hright⟩ := mem_right_of_forall₂ hall hy
    apply hright.eq_never
    rw [hsame, hsize]
    exact (hx x hmem).1
  apply (h.leads hr.neat.nodes.indexed v hmap fun ys s₂ h =>
    ⟨h.1.neat.reached.founded, fun y hy => .inl (h.2.2 y hy)⟩).mono
  rintro a s' _ ⟨ys, s₂, ⟨hr₂, hsize, hys⟩, hrun⟩
  have hnone : (mkUnion ys).run s₂.2 = (.never, s₂.2) := by
    have hunited : s₂.2.united ys = [] := by
      apply List.eq_nil_iff_forall_not_mem.mpr
      intro m hm
      obtain ⟨hmem, hne⟩ :=
        (Store.mem_united_plain hr₂.neat.reached.founded (fun y hy => .inl (hys y hy)) m).mp hm
      exact hne (hys m hmem)
    rw [Store.run_mkUnion, Store.unionPlan_eq, hunited]
  have hanswer : (((mkUnion ys).run s₂.2).1, s₂.1, ((mkUnion ys).run s₂.2).2) = (a, s') := hrun
  rw [hnone] at hanswer
  cases hanswer
  exact ⟨rfl, hsize, hr₂⟩

end Keeping

end Applied

end Members

end Evaluator

end TypeCalculus
