import TypeCalculus.Proofs.MemberMapping

namespace TypeCalculus

namespace Evaluator

open Store (Made mkUnion)

section Ways

variable {base : Store} {subject : TypeId} {whole : Mapping} {P : TypeId → Prop}

theorem Wanted.isContainer {g : Form} (h : Wanted base subject whole g) : g.isContainer = true := by
  obtain ⟨x, _, hg⟩ := h
  obtain ⟨f, _, hf⟩ := Option.bind_eq_some_iff.mp hg
  exact Mapping.isContainer_image hf

variable (base subject whole) in
def Outcome (a : TypeId) (st : Store) : Prop :=
  ∃ ys, (∀ y ∈ ys, y = .never ∨ ∃ g, Wanted base subject whole g ∧ Made g y st) ∧
    (∀ g, Wanted base subject whole g → ∃ y ∈ ys, Made g y st) ∧ (mkUnion ys).run st = (a, st)

section Outcome

variable {st : Store} (hn : st.Neat)

theorem plain_of_wanted {ys : List TypeId}
    (h : ∀ y ∈ ys, y = .never ∨ ∃ g, Wanted base subject whole g ∧ Made g y st) :
    ∀ y ∈ ys, st.Plain y := by
  intro y hy
  refine (h y hy).imp_right fun hmade => ?_
  obtain ⟨g, hg, hm⟩ := hmade
  exact hm.isContainer hg.isContainer

include hn

theorem Outcome.later {a : TypeId} {st' : Store} (h : Outcome base subject whole a st)
    (hs : st.Extends st') :
    Outcome base subject whole a st' := by
  obtain ⟨ys, hys, hall, hrun⟩ := h
  refine ⟨ys, fun y hy => ?_, fun g hg => ?_, ?_⟩
  · refine (hys y hy).imp_right fun hmade => ?_
    obtain ⟨g, hg, hm⟩ := hmade
    exact ⟨g, hg, hn.made hs hm⟩
  · obtain ⟨y, hy, hm⟩ := hall g hg
    exact ⟨y, hy, hn.made hs hm⟩
  · have hagain := Store.repeats_mkUnion_plain hn.reached.founded (plain_of_wanted hys)
    rw [Store.Repeats, hrun] at hagain
    exact hagain st' hs.grows

/-- Which answers there are. -/
theorem mem_answers {ys : List TypeId}
    (hys : ∀ y ∈ ys, y = .never ∨ ∃ g, Wanted base subject whole g ∧ Made g y st)
    (hall : ∀ g, Wanted base subject whole g → ∃ y ∈ ys, Made g y st) (y : TypeId) :
    y ∈ ys ∧ y ≠ .never ↔ ∃ g, Wanted base subject whole g ∧ Made g y st := by
  constructor
  · rintro ⟨hy, hne⟩
    exact (hys y hy).resolve_left hne
  · rintro ⟨g, hg, hm⟩
    obtain ⟨z, hz, hm'⟩ := hall g hg
    have hsame : y = z := hn.unique hm hm'
    exact ⟨hsame ▸ hz, hn.reached.founded.ne_intrinsic (hm.isContainer hg.isContainer) .never⟩

/-- The members of the outcome are the images that are to come. -/
theorem Outcome.mem_unionMembers {a : TypeId} (h : Outcome base subject whole a st) (y : TypeId) :
    y ∈ st.unionMembers a ↔ ∃ g, Wanted base subject whole g ∧ Made g y st := by
  obtain ⟨ys, hys, hall, hrun⟩ := h
  have hf := hn.reached.founded
  rw [← mem_answers hn hys hall,
    Store.unionMembers_mkUnion_plain hf (plain_of_wanted hys) hn.nodes.indexed hrun,
    Store.mem_united_plain hf (plain_of_wanted hys)]

theorem Outcome.unique {a b : TypeId} (ha : Outcome base subject whole a st)
    (hb : Outcome base subject whole b st) : a = b := by
  obtain ⟨ys, hys, hall, hrun⟩ := ha
  obtain ⟨zs, hzs, hall', hrun'⟩ := hb
  have hf := hn.reached.founded
  have hsame : st.united ys = st.united zs := by
    apply Store.united_plain_congr hf (plain_of_wanted hys) hf (plain_of_wanted hzs)
    intro m hne
    rw [← and_iff_left hne (a := m ∈ ys), ← and_iff_left hne (a := m ∈ zs), mem_answers hn hys hall,
      mem_answers hn hzs hall']
  rw [Store.run_mkUnion_congr hsame, hrun'] at hrun
  exact (Prod.mk.inj hrun).1.symm

end Outcome

section Sides

variable {s : State} (hb : base.Neat)

include hb

/-- Applying the whole mapping at once. -/
theorem leads_once {act : TypeId → EvalM TypeId} (hr : Poised base subject whole P s)
    (hmembers : s.2.unionMembers subject = base.unionMembers subject) (h : Applies s.2 whole act)
    (hk : whole.value = .keep) (hP : ∀ x, P x → base.size ≤ x)
    (hx : ∀ x ∈ base.unionMembers subject, x < base.size ∨ P x) :
    Leads Turns (act subject) s fun a s' =>
      Poised base subject whole P s' ∧ Outcome base subject whole a s'.2 := by
  have happlied := h.goes (v := subject) hr hk whole.chains_self
  rw [hmembers] at happlied
  apply (happlied (fun x hmem => (hx x hmem).imp_left fun h => Nat.lt_of_lt_of_le h hr.grown.size)
    fun x hmem => hr.harmless_member hb hmem).mono
  rintro a s' _ ⟨ys, hpassed, hrun⟩
  have hr' := hpassed.poised
  refine ⟨hr', ys, fun y hy => ?_, fun g hwanted => ?_, hrun⟩
  · obtain ⟨x, hmem, hright⟩ := hpassed.source hy
    rcases eq_or_ne y .never with hnever | hne
    · exact .inl hnever
    · obtain ⟨g, hg, hmade⟩ := hright.made_of_ne hne
      exact .inr ⟨g, hr'.harmless_member hb hmem g hg, hmade⟩
  · obtain ⟨x, hmem, hg⟩ := hwanted
    have hlt := Store.lt_size_of_image hg
    obtain ⟨y, hy, hright⟩ := hpassed.answer hmem
    refine ⟨y, hy, hright.made (fun hout => ?_) ((hb.image hr'.grown hlt).trans hg)⟩
    exact absurd (hP x hout) (Nat.not_le_of_lt hlt)

/-- Applying the first mapping. All of its answers lie below the types that it did not find. -/
theorem leads_first {first second : Mapping} (hcomp : first.Composes second whole)
    {act : TypeId → EvalM TypeId} (h : Applies s.2 first act) (hr : Poised base subject whole P s)
    (hnone : ∀ x, ¬ P x) (hmembers : s.2.unionMembers subject = base.unionMembers subject) :
    Leads Turns (act subject) s fun r s' => ∃ n ys, base.size ≤ n ∧ (∀ y ∈ ys, y < n) ∧
      Passed base subject whole (n ≤ ·) first (base.unionMembers subject) ys s' ∧
      (mkUnion ys).run s'.2 = (r, s'.2) := by
  have hfirst := h.ascends (v := subject) hr hcomp.first hcomp.chains.absorbs_first hnone
  rw [hmembers] at hfirst
  exact hfirst fun x hmem => hr.harmless_member hb hmem

/-- Applying the second mapping to what the first one has answered. -/
theorem leads_second {first second : Mapping} (hcomp : first.Composes second whole)
    {act : TypeId → EvalM TypeId} (h : Applies s.2 second act) {ys : List TypeId} {r : TypeId}
    (hpassed : Passed base subject whole P first (base.unionMembers subject) ys s)
    (hrun : (mkUnion ys).run s.2 = (r, s.2)) (hbase : ∀ x, x < base.size → ¬ P x)
    (hys : ∀ y ∈ ys, ¬ P y) :
    Leads Turns (act r) s fun a s' =>
      Poised base subject whole P s' ∧ Outcome base subject whole a s'.2 := by
  have hchains := hcomp.chains
  have hr := hpassed.poised
  have hf := hr.neat.reached.founded
  -- the members of the first answer are images of members of the subject
  have hmembers (y : TypeId) : y ∈ s.2.unionMembers r ↔ y ∈ ys ∧ y ≠ .never := by
    rw [Store.unionMembers_mkUnion_plain hf hpassed.plain hr.neat.nodes.indexed hrun,
      Store.mem_united_plain hf hpassed.plain]
  have hsource {y : TypeId} (hy : y ∈ s.2.unionMembers r) : ∃ x ∈ base.unionMembers subject,
      ∃ f g, s.2.form? x = some f ∧ first.image f = some g ∧ s.2.form? y = some g := by
    obtain ⟨hmem, hne⟩ := (hmembers y).mp hy
    obtain ⟨x, hx, hright⟩ := hpassed.source hmem
    obtain ⟨g, hg, hmade⟩ := hright.made_of_ne hne
    obtain ⟨f, hf, hfg⟩ := Option.bind_eq_some_iff.mp hg
    exact ⟨x, hx, f, g, hf, hfg, hmade.form⟩
  have hvalid (y : TypeId) (hy : y ∈ s.2.unionMembers r) : y < s.2.size :=
    hf.lt_size_of_plain (hpassed.plain y ((hmembers y).mp hy).1)
  have hharmless (y : TypeId) (hy : y ∈ s.2.unionMembers r) :
      Harmless base subject whole s.2 y := by
    intro g hg
    obtain ⟨x, hx, f, g₁, hf, hfg, hy⟩ := hsource hy
    apply hr.harmless_member hb hx
    rw [Store.image?_of_form hf, ← hchains.absorbs_first.image_bind, hfg]
    rw [Store.image?_of_form hy] at hg
    exact hg
  apply (h.goes hr hcomp.second hcomp.absorbs_second (fun y hy => .inl (hvalid y hy))
    hharmless).mono
  rintro a s' hs ⟨zs, hpassed', hrun'⟩
  have hlater {y : TypeId} (hy : y ∈ s.2.unionMembers r) : s'.2.form? y = s.2.form? y :=
    hr.neat.form hs.store.grown (hvalid y hy)
  refine ⟨hpassed'.poised, zs, fun z hz => ?_, fun g hwanted => ?_, hrun'⟩
  · obtain ⟨y, hy, hright⟩ := hpassed'.source hz
    rcases eq_or_ne z .never with hnever | hne
    · exact .inl hnever
    · obtain ⟨g, hg, hmade⟩ := hright.made_of_ne hne
      obtain ⟨x, hx, f, g₁, hf, hfg, hform⟩ := hsource hy
      refine .inr ⟨g, hr.harmless_member hb hx g ?_, hmade⟩
      rw [Store.image?_of_form ((hlater hy).trans hform)] at hg
      rw [Store.image?_of_form hf, ← hchains.image_bind, hfg]
      exact hg
  · obtain ⟨x, hx, hg⟩ := hwanted
    obtain ⟨f, hform, hfg⟩ := Option.bind_eq_some_iff.mp hg
    have hlt := Store.lt_size_of_form hform
    rw [← hchains.image_bind] at hfg
    obtain ⟨g₁, hg₁, hgg⟩ := Option.bind_eq_some_iff.mp hfg
    obtain ⟨y, hy, hright⟩ := hpassed.answer hx
    have hmade : Made g₁ y s.2 := by
      apply hright.made (hbase x hlt)
      rw [Store.image?_of_form ((hb.form hr.grown hlt).trans hform), hg₁]
    have hne := hf.ne_intrinsic (hmade.isContainer (Mapping.isContainer_image hg₁)) .never
    have hy' : y ∈ s.2.unionMembers r := (hmembers y).mpr ⟨hy, hne⟩
    obtain ⟨z, hz, hright'⟩ := hpassed'.answer hy'
    refine ⟨z, hz, hright'.made (hys y hy) ?_⟩
    rw [Store.image?_of_form ((hlater hy').trans hmade.form), hgg]

end Sides

variable (base subject) in
def Kept (st : Store) : Prop := subject < base.size ∨ st.size = base.size

/-- Of a type that is not there nothing is to come. -/
theorem outcome_never (hb : base.Neat) (hge : base.size ≤ subject) (st : Store) :
    Outcome base subject whole .never st := by
  refine ⟨[], (fun _ h => by cases h), fun g hg => ?_, rfl⟩
  obtain ⟨x, hx, hg⟩ := hg
  rw [Store.unionMembers_outside hb.reached.founded hge, List.mem_singleton] at hx
  exact absurd (hx ▸ Store.lt_size_of_image hg) (Nat.not_lt_of_le hge)

inductive Computes (st : Store) (whole : Mapping) : (TypeId → EvalM TypeId) → Prop
  | once {act : TypeId → EvalM TypeId} (h : Applies st whole act) : Computes st whole act
  | twice {first second : Mapping} {act act' : TypeId → EvalM TypeId}
      (hcomp : first.Composes second whole)
    (h : Applies st first act) (h' : Applies st second act') :
    Computes st whole fun subject => act subject >>= act'

theorem Computes.later {st st' : Store} {act : TypeId → EvalM TypeId} (h : Computes st whole act)
    (hs : st.Extends st') : Computes st' whole act := by
  cases h with
  | once h => exact .once (h.later hs)
  | twice hcomp h h' => exact .twice hcomp (h.later hs) (h'.later hs)

section Computes

variable {s : State} {act : TypeId → EvalM TypeId} (h : Computes s.2 whole act)
  (hk : whole.value = .keep)

include h hk

/-- Nothing comes of a type that is not there. -/
theorem Computes.nothing (hr : Poised base subject whole P s) {v : TypeId} (hv : s.2.size ≤ v)
    (hP : P v) :
    Leads Turns (act v) s fun a s' =>
      a = .never ∧ s'.2.size = s.2.size ∧ Poised base subject whole P s' := by
  cases h with
  | once h => exact h.nothing hr hk whole.chains_self (hr.outside hv hP)
  | twice hcomp h h' =>
    apply (h.nothing hr hcomp.first hcomp.chains.absorbs_first (hr.outside hv hP)).bind
    rintro r s₁ h₁ ⟨rfl, hsize, hr₁⟩
    apply ((h'.later h₁.store.grown).nothing hr₁ hcomp.second hcomp.absorbs_second
      fun _ h => by cases h).mono
    rintro a s' _ ⟨ha, hsize', hr'⟩
    exact ⟨ha, hsize'.trans hsize, hr'⟩

variable (hb : base.Neat)

include hb

/-- The subject may be a type that is not there, as long as it does not come to be. -/
theorem Computes.away (hr : Poised base subject whole P s) (hge : base.size ≤ subject)
    (hP : P subject) (hkept : Kept base subject s.2) :
    Leads Turns (act subject) s fun a s' =>
      Poised base subject whole P s' ∧ Outcome base subject whole a s'.2 ∧
      Kept base subject s'.2 := by
  have hsize := hkept.resolve_left (Nat.not_lt_of_le hge)
  apply (h.nothing hk hr (hsize ▸ hge) hP).mono
  rintro a s' _ ⟨rfl, hsize', hr'⟩
  exact ⟨hr', outcome_never hb hge s'.2, .inr (hsize'.trans hsize)⟩

omit h in
/-- The whole mapping makes the same of the subject on an evaluator that remembers `never` for types
that were not there. -/
theorem Applies.again (h : Applies s.2 whole act) (hr : Poised base subject whole (base.size ≤ ·) s)
    (hkept : Kept base subject s.2) :
    Leads Turns (act subject) s fun a s' =>
      Poised base subject whole (base.size ≤ ·) s' ∧ Outcome base subject whole a s'.2 ∧
        Kept base subject s'.2 := by
  rcases Nat.lt_or_ge subject base.size with hlt | hge
  · apply (leads_once hb hr (hb.unionMembers hr.grown hlt) h hk (fun _ hx => hx)
      fun x _ => Nat.lt_or_ge x base.size).mono
    exact fun _ _ _ h => ⟨h.1, h.2, .inl hlt⟩
  · exact (Computes.once h).away hk hb hr hge hge hkept

variable (hr : Poised base subject whole P s) (hnone : ∀ x, ¬ P x)

include hr hnone

/-- Whichever way the mapping is applied, the same comes of the subject. -/
theorem Computes.leads (hkept : Kept base subject s.2) : Leads Turns (act subject) s fun a s' =>
    Poised base subject whole (base.size ≤ ·) s' ∧ Outcome base subject whole a s'.2 ∧
      Kept base subject s'.2 := by
  have hr' : Poised base subject whole (base.size ≤ ·) s := hr.mono fun x hx => absurd hx (hnone x)
  rcases Nat.lt_or_ge subject base.size with hlt | hge
  · cases h with
    | once h => exact h.again hk hb hr' hkept
    | twice hcomp h h' =>
      apply (leads_first hb hcomp h hr hnone (hb.unionMembers hr.grown hlt)).bind
      rintro r s₁ h₁ ⟨n, ys, hn, hys, hpassed, hrun⟩
      apply (leads_second hb hcomp (h'.later h₁.store.grown) hpassed hrun
        (fun x hx => Nat.not_le_of_lt (Nat.lt_of_lt_of_le hx hn)) fun y hy =>
          Nat.not_le_of_lt (hys y hy)).mono
      exact fun a s' _ h => ⟨h.1.mono fun x hx => Nat.le_trans hn hx, h.2, .inl hlt⟩
  · exact h.away hk hb hr' hge hge hkept

/-- If all members of the subject are there, the evaluator remembers nothing but what is right. -/
theorem Computes.leads_there (hlt : subject < base.size)
    (hthere : ∀ x ∈ base.unionMembers subject, x < base.size) :
    Leads Turns (act subject) s fun a s' =>
      Poised base subject whole P s' ∧ Outcome base subject whole a s'.2 := by
  have hmembers := hb.unionMembers hr.grown hlt
  cases h with
  | once h =>
    exact leads_once hb hr hmembers h hk (fun x hx => absurd hx (hnone x)) fun x hx =>
      .inl (hthere x hx)
  | twice hcomp h h' =>
    have hfirst := h.goes (v := subject) hr hcomp.first hcomp.chains.absorbs_first
    rw [hmembers] at hfirst
    apply (hfirst (fun x hmem => .inl (Nat.lt_of_lt_of_le (hthere x hmem) hr.grown.size))
      fun x hmem => hr.harmless_member hb hmem).bind
    rintro r s₁ h₁ ⟨ys, hpassed, hrun⟩
    exact leads_second hb hcomp (h'.later h₁.store.grown) hpassed hrun (fun x _ => hnone x)
      fun y _ => hnone y

end Computes

theorem supplied_self (hb : base.Neat) : Supplied base subject whole base where
  neat := hb
  grown := .refl base
  fresh ht g hg := by
    rw [Store.image_outside ht] at hg
    cases hg

theorem Supplied.poised {st : Store} (h : Supplied base subject whole st) :
    Poised base subject whole P (start, st) :=
  { h with
    resting := .blank rfl rfl rfl fun _ => trivial
    positive := Limits.positive_evaluation
    memo := fun h => by cases h }

theorem leads_fresh {act : EvalM TypeId} {st : Store} {Q : TypeId → State → Prop}
    (h : Leads Turns act (start, st) Q) :
    Leads (Discipline.Evolves .free) (fresh act) st fun a st' => ∃ e, Q a (e, st') :=
  ⟨h.1.store, _, h.2⟩

/-- The whole mapping is applied to the subject, on one evaluator or with one for each part. -/
inductive Way (st : Store) (whole : Mapping) (subject : TypeId) : StoreM TypeId → Prop
  | together {act : TypeId → EvalM TypeId} (h : Computes st whole act) :
    Way st whole subject (fresh (act subject))
  | apart {first second : Mapping} {act act' : TypeId → EvalM TypeId}
      (hcomp : first.Composes second whole)
    (h : Applies st first act) (h' : Applies st second act') :
    Way st whole subject (fresh (act subject) >>= fun t => fresh (act' t))

theorem Way.later {st st' : Store} {way : StoreM TypeId} (h : Way st whole subject way)
    (hs : st.Extends st') : Way st' whole subject way := by
  cases h with
  | together h => exact .together (h.later hs)
  | apart hcomp h h' => exact .apart hcomp (h.later hs) (h'.later hs)

/-- Whichever way it is taken, the answer is the outcome. -/
theorem Way.leads {st : Store} {way : StoreM TypeId} (h : Way st whole subject way)
    (hk : whole.value = .keep) (hb : base.Neat) (hs : Supplied base subject whole st)
    (hkept : Kept base subject st) :
    Leads (Discipline.Evolves .free) way st fun a st' =>
      Supplied base subject whole st' ∧ Outcome base subject whole a st' ∧
      Kept base subject st' := by
  cases h with
  | together h =>
    apply (leads_fresh (h.leads (s := (start, st)) hk hb hs.poised (fun _ => id) hkept)).mono
    rintro a st' _ ⟨e, hr, hout⟩
    exact ⟨hr.toSupplied, hout⟩
  | apart hcomp h h' =>
    rcases Nat.lt_or_ge subject base.size with hlt | hge
    · have hfirst := leads_first (s := (start, st)) hb hcomp h hs.poised (fun _ => id)
        (hb.unionMembers hs.grown hlt)
      apply (leads_fresh hfirst).bind
      rintro r st₁ h₁ ⟨e, n, ys, hn, hys, hpassed, hrun⟩
      have hagain : Passed base subject whole (n ≤ ·) _ _ ys (start, st₁) :=
        ⟨hpassed.poised.toSupplied.poised, hpassed.answers⟩
      apply (leads_fresh (leads_second hb hcomp (h'.later h₁.grown) hagain hrun
        (fun x hx => Nat.not_le_of_lt (Nat.lt_of_lt_of_le hx hn)) fun y hy =>
          Nat.not_le_of_lt (hys y hy))).mono
      rintro a st' _ ⟨e, hr, hout⟩
      exact ⟨hr.toSupplied, hout, .inl hlt⟩
    · have hsize := hkept.resolve_left (Nat.not_lt_of_le hge)
      have hr : Poised base subject whole (base.size ≤ ·) (start, st) := hs.poised
      have hfirst := h.nothing (s := (start, st)) hr hcomp.first hcomp.chains.absorbs_first
        (hr.outside (hsize ▸ hge) hge)
      apply (leads_fresh hfirst).bind
      rintro r st₁ h₁ ⟨e, rfl, hsize₁, hr₁⟩
      have hr₁ : Poised base subject whole (base.size ≤ ·) (start, st₁) := hr₁.toSupplied.poised
      apply (leads_fresh ((h'.later h₁.grown).nothing hr₁ hcomp.second hcomp.absorbs_second
        fun _ h => by cases h)).mono
      rintro a st' _ ⟨e, rfl, hsize₂, hr₂⟩
      exact ⟨hr₂.toSupplied, outcome_never hb hge st', .inr (hsize₂.trans (hsize₁.trans hsize))⟩

section Agreement

variable (hb : base.Neat) (hk : whole.value = .keep)

include hb hk

/-- All ways give the same answer, whichever comes first. -/
theorem Way.agree {one other : StoreM TypeId} (h : Way base whole subject one)
    (h' : Way base whole subject other) : (other.run (one.run base).2).1 = (one.run base).1 := by
  obtain ⟨_, hs, hout, hkept⟩ := h.leads hk hb (supplied_self hb) (.inr rfl)
  obtain ⟨hev, hs', hout', _⟩ := (h'.later hs.grown).leads hk hb hs hkept
  exact hout'.unique hs'.neat (hout.later hs.neat hev.grown)

theorem Way.mem_unionMembers {way : StoreM TypeId} (h : Way base whole subject way) (y : TypeId) :
    y ∈ (way.run base).2.unionMembers (way.run base).1 ↔
      ∃ g, Wanted base subject whole g ∧ Made g y (way.run base).2 := by
  obtain ⟨_, hs, hout, _⟩ := h.leads hk hb (supplied_self hb) (.inr rfl)
  exact hout.mem_unionMembers hs.neat y

/-- Two ways may share an evaluator if all members of the subject are there, or if the whole mapping
is applied last. -/
theorem Computes.agree {one other : TypeId → EvalM TypeId} (h : Computes base whole one)
    (h' : Computes base whole other)
    (hcase : (∀ x ∈ base.unionMembers subject, x < base.size) ∨ Applies base whole other) :
    let r := Action.run (one subject) (start, base)
    (Action.run (other subject) r.2).1 = r.1 := by
  intro r
  have hpoised {P : TypeId → Prop} : Poised base subject whole P (start, base) :=
    (supplied_self hb).poised
  have hnone (x : TypeId) : ¬ (fun _ : TypeId => False) x := id
  rcases hcase with hthere | happlies
  · have hlt : subject < base.size := by
      by_contra hge
      rw [Store.unionMembers_outside hb.reached.founded (Nat.le_of_not_lt hge)] at hthere
      exact hge (hthere subject (List.mem_singleton.mpr rfl))
    obtain ⟨_, hr, hout⟩ := h.leads_there hk hb hpoised hnone hlt hthere
    obtain ⟨hturns, hr', hout', _⟩ := (h'.later hr.grown).leads hk hb hr hnone (.inl hlt)
    exact hout'.unique hr'.neat (hout.later hr.neat hturns.store.grown)
  · obtain ⟨_, hr, hout, hkept⟩ := h.leads hk hb hpoised hnone (.inr rfl)
    obtain ⟨hturns, hr', hout', _⟩ := (happlies.later hr.grown).again hk hb hr hkept
    exact hout'.unique hr'.neat (hout.later hr.neat hturns.store.grown)

end Agreement

end Ways

end Evaluator

namespace Operation

open Evaluator

/-- Two mappings that keep the values do, one after the other, what the composed mapping does at
once: the answer is the union of the images of the subject's members. The two may be applied on one
evaluator or on one for each, and either side may be first; so may other mappings that compose to
the same one. On an evaluator that applied the two, the composed mapping gives the same answer too,
and if all members of the subject are there, any order will do on one evaluator. -/
theorem mappings_compose {ops : List Operation} (h : ∀ op ∈ ops, op.isRaw = false)
    {m₁ m₂ m : Mapping} (hm : m₁.Composes m₂ m) :
    let st := afterAll .initial ops
    ∀ first second whole : TypeId → EvalM TypeId, Applies st m₁ first → Applies st m₂ second →
      Applies st m whole → ∀ subject : TypeId,
      let left := Action.run (first subject >>= second) (start, st)
      let right := Action.run (whole subject) (start, st)
      let ways : List (StoreM TypeId) := [fresh (whole subject), fresh (first subject >>= second),
        fresh (first subject) >>= fun t => fresh (second t)]
      (∀ one ∈ ways, ∀ other ∈ ways, (other.run (one.run st).2).1 = (one.run st).1) ∧
      (∀ one ∈ ways, ∀ y, y ∈ (one.run st).2.unionMembers (one.run st).1 ↔
        ∃ x ∈ st.unionMembers subject, ∃ g, st.image? m x = some g ∧
        Store.Made g y (one.run st).2) ∧
      (Action.run (whole subject) left.2).1 = left.1 ∧
      ((∀ x ∈ st.unionMembers subject, x < st.size) →
        (Action.run (first subject >>= second) right.2).1 = right.1) ∧
      ∀ (m₃ m₄ : Mapping) (third fourth : TypeId → EvalM TypeId), m₃.Composes m₄ m →
        Applies st m₃ third → Applies st m₄ fourth →
        (∀ one ∈ ways, ((fresh (third subject >>= fourth)).run (one.run st).2).1 = (one.run st).1 ∧
          ((fresh (third subject) >>= fun t => fresh (fourth t)).run (one.run st).2).1 =
            (one.run st).1) ∧
        ((∀ x ∈ st.unionMembers subject, x < st.size) →
          (Action.run (third subject >>= fourth) left.2).1 = left.1) := by
  intro st first second whole h₁ h₂ h₃ subject left right ways
  have hneat : st.Neat := Store.neat_afterAll h
  have hboth := Computes.twice hm h₁ h₂
  have hwhole := Computes.once h₃
  have hways : ∀ one ∈ ways, Way st m subject one := by
    simp only [ways, List.forall_mem_cons]
    exact ⟨.together hwhole, .together hboth, .apart hm h₁ h₂, fun _ h => by cases h⟩
  refine ⟨fun one hone other hother => (hways one hone).agree hneat hm.whole (hways other hother),
    fun one hone y => ?_, hboth.agree hneat hm.whole hwhole (.inr h₃),
    fun hthere => hwhole.agree hneat hm.whole hboth (.inl hthere), ?_⟩
  · rw [(hways one hone).mem_unionMembers hneat hm.whole]
    constructor
    · rintro ⟨g, ⟨x, hx, hg⟩, hy⟩
      exact ⟨x, hx, g, hg, hy⟩
    · rintro ⟨x, hx, g, hg, hy⟩
      exact ⟨g, ⟨x, hx, hg⟩, hy⟩
  · intro m₃ m₄ third fourth hm' h₃' h₄'
    have hother := Computes.twice hm' h₃' h₄'
    refine ⟨fun one hone => ⟨?_, ?_⟩, fun hthere => hboth.agree hneat hm.whole hother (.inl hthere)⟩
    · exact (hways one hone).agree hneat hm.whole (.together hother)
    · exact (hways one hone).agree hneat hm.whole (.apart hm' h₃' h₄')

/-- An object and a tuple in a union with the type that will be built next, and a mapping that makes
fields optional. -/
def hastyFields : List Operation :=
  [.build (.object {
      fields := [{ name := "a", type := .string }, { name := "b", type := .number }]
      index := some { type := .unknown } }),
    .build (.tuple [{ type := .string }, { type := .number, rest := true }]),
    .build (.union [12, 13, 15]), .build (.mapping { optional := some .add })]

theorem mappings_compose_hastyFields :
    (∀ op ∈ hastyFields, op.isRaw = false) ∧
      let both : Mapping := { optional := some .add, readonly := some .add }
      let st := afterAll .initial hastyFields
      let left := Action.run (applyMapping 0 14 >>= readonlyFields) (start, st)
      let apart := (fresh (applyMapping 0 14) >>= fun t => fresh (readonlyFields t)).run st
      (Mapping.Composes { optional := some .add } { readonly := some .add } both ∧
        st.mappings.get? 0 = some { optional := some .add } ∧ st.unionMembers 14 = [12, 13, 15] ∧
        st.size = 15 ∧ left.1 = 19 ∧ left.2.2.unionMembers 19 = [16, 18] ∧
        (Action.run (mapWith both 14) left.2).1 = left.1 ∧ apart.1 = 19 ∧
        ((fresh (mapWith both 14)).run apart.2).1 = apart.1 ∧
        ((fresh (readonlyFields 14 >>= applyMapping 0)).run apart.2).1 = apart.1) ∧
      let right := Action.run (pick 12 ["a"]) (start, st)
      Mapping.Composes { keys := .without ["b"] } { keys := .only ["b", "a"] }
        { keys := .only ["a"] } ∧
        (∀ x ∈ st.unionMembers 12, x < st.size) ∧ right.1 = 15 ∧
        (Action.run (leaveOut 12 ["b"] >>= fun t => pick t ["b", "a"]) right.2).1 = right.1 := by
  have hraw : ∀ op ∈ hastyFields, op.isRaw = false := by decide
  have hboth : Mapping.Composes { optional := some .add } { readonly := some .add }
      { optional := some .add, readonly := some .add } := ⟨.all, rfl, rfl, rfl, rfl, rfl⟩
  have hturned : Mapping.Composes { readonly := some .add } { optional := some .add }
      { optional := some .add, readonly := some .add } := ⟨.all, rfl, rfl, rfl, rfl, rfl⟩
  have hpicked : Mapping.Composes { keys := .without ["b"] } { keys := .only ["b", "a"] }
      { keys := .only ["a"] } := ⟨.only (by decide) (by decide), rfl, rfl, rfl, rfl, rfl⟩
  have hheld : (afterAll .initial hastyFields).mappings.get? 0 =
      some { optional := some .add } := by
    decide +kernel
  have hthere : ∀ x ∈ (afterAll .initial hastyFields).unionMembers 12,
      x < (afterAll .initial hastyFields).size := by decide +kernel
  have hleft := mappings_compose hraw hboth (applyMapping 0) readonlyFields
    (mapWith { optional := some .add, readonly := some .add }) (.held hheld) .anew .anew 14
  have hright :=
    mappings_compose hraw hpicked (fun t => leaveOut t ["b"]) (fun t => pick t ["b", "a"])
    (fun t => pick t ["a"]) .anew .anew .anew 12
  have hother := hleft.2.2.2.2 _ _ readonlyFields (applyMapping 0) hturned .anew (.held hheld)
  have hlast {α : Type} (a b c : α) : c ∈ [a, b, c] := by simp
  refine ⟨hraw,
    ⟨hboth, hheld, by decide +kernel, by decide +kernel, by decide +kernel, by decide +kernel,
    hleft.2.2.1, by decide +kernel, ?_, ?_⟩, hpicked, hthere,
    by decide +kernel, hright.2.2.2.1 hthere⟩
  · exact hleft.1 _ (hlast _ _ _) _ List.mem_cons_self
  · exact (hother.1 _ (hlast _ _ _)).1

end Operation

end TypeCalculus
