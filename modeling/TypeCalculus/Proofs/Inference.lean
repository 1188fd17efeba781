import TypeCalculus.Proofs.Completeness
import TypeCalculus.Proofs.Growth
import TypeCalculus.Proofs.Instances

namespace TypeCalculus

open Store (Later kind_concrete)

def Bindings.Covered (bindings : Bindings) (st : Store) (wider : Bindings) : Prop :=
  ∀ name t, bindings.get? name = some t → ∃ t', wider.get? name = some t' ∧
    ∀ a, st.Concrete a → st.Assignable a t → st.Assignable a t'

namespace Bindings

theorem Covered.refl (bindings : Bindings) (st : Store) : bindings.Covered st bindings :=
  fun _ t h => ⟨t, h, fun _ _ ha => ha⟩

theorem Covered.trans {st : Store} {b b' b'' : Bindings} (h : b.Covered st b')
    (h' : b'.Covered st b'') : b.Covered st b'' := by
  intro name t ht
  obtain ⟨t', ht', hle⟩ := h name t ht
  obtain ⟨t'', ht'', hle'⟩ := h' name t' ht'
  exact ⟨t'', ht'', fun a ha hat => hle' a ha (hle a ha hat)⟩

theorem Covered.insert {st : Store} {b : Bindings} {name : String} {t : TypeId}
    (h : ∀ held, b.get? name = some held → ∀ a, st.Concrete a → st.Assignable a held →
      st.Assignable a t) : b.Covered st (b.insert name t) := by
  intro probe held hheld
  rw [Dict.get?_insert]
  split
  · rename_i he
    exact ⟨t, rfl, h held (he ▸ hheld)⟩
  · exact ⟨held, hheld, fun _ _ ha => ha⟩

/-- A further candidate makes a binding wider, and wide enough for the candidate. -/
theorem leads_widen {st : Store} (hw : st.WellFormed) {bindings : Bindings}
    (h : bindings.AreOf Store.Concrete st) {candidate : TypeId} (hc : st.Concrete candidate)
    (name : String) :
    Leads Later (bindings.bind name candidate .covariant) st fun wider st' =>
      wider.AreOf Store.Concrete st' ∧ ∀ W, st'.Extends W → W.WellFormed →
        bindings.Covered W wider ∧ ∃ t, wider.get? name = some t ∧ W.Assignable candidate t := by
  have hfound (t : TypeId) : (bindings.insert name t).get? name = some t := by
    rw [Dict.get?_insert, if_pos rfl]
  unfold Bindings.bind
  split
  · rename_i hnone
    refine Leads.pure ⟨h.insert hc, fun W _ _ =>
      ⟨.insert fun held hheld => ?_, _, hfound _, .refl _⟩⟩
    simp [hnone] at hheld
  · rename_i held hheld _
    have hpair : ∀ t ∈ [held, candidate], st.Concrete t := by
      intro t ht
      rcases List.mem_pair.mp ht with rfl | rfl
      · exact h name t hheld
      · exact hc
    have hagain := Store.repeats_mkUnion hw fun t ht => (hpair t ht).valid
    have hunion : Leads Later (Store.mkUnion [held, candidate]) st fun t st' =>
        st'.Concrete t ∧ ∀ W, st'.Extends W → (Store.mkUnion [held, candidate]).run W = (t, W) := by
      obtain ⟨hlater, ht⟩ := kind_concrete.leads_mkUnion hw hpair
      exact leads_run hlater ⟨ht, fun W hW => hagain W hW.grows⟩
    refine hunion.bind fun t st' hs ht => ?_
    refine Leads.pure ⟨(h.later kind_concrete hw hs.grown).insert ht.1, fun W hW hwf => ?_⟩
    have hpairW : ∀ t ∈ [held, candidate], W.Concrete t := fun t hm =>
      kind_concrete.later hw (hs.grown.trans hW) (hpair t hm)
    have hwide {a u : TypeId} (hu : u ∈ [held, candidate]) (ha : W.Concrete a)
        (h : W.Assignable a u) : W.Assignable a t :=
      h.mkUnion hwf hpairW (ht.2 W hW) hu ha
    refine ⟨.insert fun other ho a ha => hwide ?_ ha, t, hfound t,
      hwide (by simp) (hpairW _ (by simp)) (.refl _)⟩
    cases hheld.symm.trans ho
    exact List.mem_cons_self
  · contradiction

end Bindings

namespace Matcher

open Substitution (Instance Fits)

structure Gathers (s s' : State) : Prop where
  keeps : Keeps Store.Concrete s s'
  covered {W : Store} : s'.2.Extends W → W.WellFormed → s.1.bindings.Covered W s'.1.bindings

instance : Upkeep Gathers where
  refl s := ⟨Evolution.refl s, fun _ _ => .refl _ _⟩
  trans h h' := ⟨Evolution.trans h.keeps h'.keeps, fun he hw =>
    (h.covered (h'.keeps.later.grown.trans he) hw).trans (h'.covered he hw)⟩
  restore h := ⟨Upkeep.restore h.keeps, fun _ _ => .refl _ _⟩
  blind g g' h := ⟨Upkeep.blind g g' h.keeps, h.covered⟩

theorem Gathers.store {s : State} {st' : Store} (h : Later s.2 st') : Gathers s (s.1, st') :=
  ⟨Keeps.store kind_concrete h, fun _ _ => .refl _ _⟩

section Steps

variable {s : State} (hs : Held Store.Concrete s)

include hs

/-- A candidate can be assigned to what its variable is bound to, from then on. -/
theorem leads_gather {t : TypeId} (ht : s.2.Concrete t) (name : String) :
    Leads (Walk Gathers) (bind name t .covariant) s fun _ s' => ∀ W, s'.2.Extends W → W.WellFormed →
      ∃ v, s'.1.bindings.get? name = some v ∧ W.Assignable t v := by
  obtain ⟨hlater, hof, hwide⟩ := Bindings.leads_widen hs.sound hs.bindings ht name
  have hlift : Leads (Walk Gathers)
      (liftM (s.1.bindings.bind name t .covariant) : MatchM Bindings) s fun wider s' =>
        s'.1 = s.1 ∧ wider.AreOf Store.Concrete s'.2 ∧ ∀ W, s'.2.Extends W → W.WellFormed →
          s.1.bindings.Covered W wider ∧ ∃ v, wider.get? name = some v ∧ W.Assignable t v :=
    leads_lift ⟨.refl _, Gathers.store hlater⟩ ⟨rfl, hof, hwide⟩
  unfold bind
  refine leads_get (hlift.bind fun wider s₁ _ h => ?_)
  obtain ⟨he, hof, hwide⟩ := h
  refine leads_modify ⟨.refl _, ⟨Evolution.refl _, fun _ _ h => h,
    fun h => { h with bindings := hof }⟩, fun {W} hW hwf => ?_⟩ fun W hW hwf => (hwide W hW hwf).2
  rw [he]
  exact (hwide W hW hwf).1

theorem leads_gatherAny {goal : Goal} (hv : goal.variance = .covariant)
    (ht : goal.pattern < s.2.size) : Leads (Walk Gathers) (bindAny goal) s fun _ _ => True := by
  refine leads_bindAll hs.scanned ⟨.scan ht, fun _ _ => .refl _ _⟩ fun s' hs' name => ?_
  have hs' := hs'.kept.keeps.held hs
  rw [hv]
  exact (leads_gather hs' (kind_concrete.intrinsic .any hs'.sound) name).mono fun _ _ _ _ => trivial

end Steps

def Below (g g' : Goal) : Prop :=
  g.pattern < g'.pattern ∨ g.pattern = g'.pattern ∧ g.subject < g'.subject

theorem Below.irrefl (g : Goal) : ¬ Below g g := by
  rintro (h | ⟨_, h⟩) <;> exact Nat.lt_irrefl _ h

theorem Below.trans {a b c : Goal} (h : Below a b) (h' : Below b c) : Below a c := by
  rcases h with h | ⟨he, h⟩ <;> rcases h' with h' | ⟨he', h'⟩
  · exact .inl (Nat.lt_trans h h')
  · exact .inl (he' ▸ h)
  · exact .inl (he ▸ h')
  · exact .inr ⟨he.trans he', Nat.lt_trans h h'⟩

/-- The questions of a clause about a covariant pattern lie below the question that it is about, so
none comes up again while it is being asked. -/
theorem below_of_asked {st : Store} (hw : st.WellFormed) {s p a b : TypeId} (hp : st.Covariant p)
    (h : st.Asked s p a b) (v : Variance) : Below ⟨a, b, v⟩ ⟨s, p, v⟩ := by
  rcases h with ⟨_, hb⟩ | ⟨ha, rfl⟩
  · exact .inl ((hw.sound p).below (hp p .refl).1 hb)
  · exact .inr ⟨rfl, hw.member_lt ha⟩

def Sound (goal : Goal) (s : State) : Prop :=
  (∀ g ∈ s.1.guard.visiting, Below goal g) → ∀ W infers, s.2.Extends W → W.WellFormed →
    s.1.bindings.Covered W infers → Fits W infers goal.subject goal.pattern

abbrev Covariant (st : Store) (t : TypeId) : Prop := st.WellFormed ∧ t < st.size ∧ st.Covariant t

/-- A covariant pattern is matched part for part. -/
theorem rules_sound : Rules Gathers (Held Store.Concrete) (· = .covariant) Concrete Covariant
    Sound (fun _ _ => False) (fun _ _ _ _ => False) (fun _ _ _ _ => False) where
  ground := ground_kinds (fun h => h.keeps.later) Gathers.store kind_concrete
    Store.inherited_covariant
  known _ _ h := h.kept.keeps.held
  blind _ h := { h with }
  stable_yes goal s s' hs h hless W infers he hw hcov :=
    h (fun g hg => hless g (hs.guard.visiting ▸ hg)) W infers
      (hs.kept.keeps.later.grown.trans he) hw
      ((hs.kept.covered he hw).trans hcov)
  stable_asked _ _ _ _ := id
  stable_yes_into _ _ _ _ _ _ := id
  stable_asked_into _ _ _ _ _ _ := id
  same {s goal} hm he _ W infers hW hw _ q hq := by
    have hs := kind_concrete.later hm.subject.1 hW hm.subject.2
    rw [hq.eq_of_free (he ▸ hs.inferFree), he]
    exact .refl _
  undefined _ _ _ := id
  bound {s goal name} hm hf := by
    rw [hm.variance]
    refine (leads_gather hm.known hm.subject.2 name).mono fun _ s' hs' h => ?_
    intro _ W infers hW hw hcov q hq
    have hext := hs'.kept.keeps.later.grown.trans hW
    have hform := (hm.pattern.1.form_extends hext hm.pattern.2.1).trans hf
    obtain ⟨v, hv, ha⟩ := h W hW hw
    obtain ⟨v', hv', hle⟩ := hcov name v hv
    rw [hq.eq_of_infer hform, hv']
    exact hle _ (kind_concrete.later hm.subject.1 hext hm.subject.2) ha
  extreme {s goal} hm hd h := by
    intro _ W infers hW hw _ q hq
    rcases h with htop | hnever
    · obtain ⟨kind, hk⟩ := hw.founded.form_top htop
      rw [hq.eq_of_free ((Store.kind_infersIn _).built hw hk nofun nofun).2]
      exact Store.assignable_top (by simp [hk]) htop
    · obtain ⟨f, hf⟩ := hq.concrete.defined
      rw [hnever]
      exact Store.assignable_never (by simp [hf])
  any {s goal} hm hd h := by
    refine (leads_gatherAny hm.known hm.variance hm.pattern.2.1).mono fun _ s' _ _ => ?_
    intro _ W infers _ _ _ q hq
    obtain ⟨f, hf⟩ := hq.concrete.defined
    rw [h]
    exact Store.assignable_any (by simp [hf])
  met _ hv hless := absurd (hless _ hv) (Below.irrefl _)
  close {s s' goal g} hm hnot hi hw hc := by
    intro hless W infers hW hwf hcov
    have hw₀ := hm.pattern.1
    have hext := hw.kept.keeps.later.grown
    have hw' := hw.kept.keeps.later.sound hw₀
    have hs' : Concrete s'.2 goal.subject :=
      ⟨hw', kind_concrete.later hw₀ hext hm.subject.2⟩
    obtain ⟨hlt, hpattern⟩ : goal.pattern < s'.2.size ∧ s'.2.Covariant goal.pattern :=
      Store.inherited_covariant.later hw₀ hext hm.pattern.2
    have hform := hw'.form_extends hW hlt
    have hform' := hw₀.form_extends hext hm.pattern.2.1
    obtain ⟨hltW, hpatternW⟩ : goal.pattern < W.size ∧ W.Covariant goal.pattern :=
      Store.inherited_covariant.later hw' hW ⟨hlt, hpattern⟩
    refine Substitution.fits_of_clause hwf (kind_concrete.later hw' hW hs'.2) hltW hpatternW
      (fun name => ?_) (hc.transfer (hw'.sameParts hW hs'.2.valid) (fun a b hab ha => ?_)
        (fun _ _ _ h => h) hform)
    · rw [hform, hform']
      exact hnot name
    · -- The question about the parts is below the one that is being asked, and so below all others.
      have hbelow := below_of_asked hw' hpattern hab goal.variance
      refine ha (fun other ho => ?_) W infers hW hwf hcov
      rw [hw.guard.visiting, hi.visiting] at ho
      rcases List.mem_cons.mp ho with rfl | ho
      · exact hbelow
      · exact hbelow.trans (hless other ((hi.leave hw.guard).visiting ▸ ho))
  unfold _ _ _ _ _ _ h := h.elim
  into v _ _ st p sig hp hf := by
    rcases hf with hf | hf <;> cases hp.2.2.form hf

/-- After a yes the subject fits the pattern under the bindings found. -/
theorem run_fits {st : Store} (hw : st.WellFormed) {s p : TypeId} (hs : st.Concrete s)
    (hp : p < st.size) (hcov : st.Covariant p) (limits : Limits) :
    let r := (run limits s p).run st
    Later st r.2 ∧ r.1.2.bindings.AreOf Store.Concrete r.2 ∧
      (r.1.1 = true → ∀ W, r.2.Extends W → W.WellFormed → Fits W r.1.2.bindings s p) := by
  have hstart := held_start hw limits
  obtain ⟨hwalk, hyes, _⟩ :=
    rules_sound.decides_run limits ⟨hstart, rfl, ⟨hw, hs⟩, ⟨hw, hp, hcov⟩⟩
  refine ⟨hwalk.kept.keeps.later, (hwalk.kept.keeps.held hstart).bindings, fun h W hW hwf => ?_⟩
  refine hyes h (fun g hg => ?_) W _ hW hwf (.refl _ _)
  rw [hwalk.guard.visiting] at hg
  cases hg

end Matcher

theorem run_matchPattern (subject pattern : TypeId) (limits : Limits) (st : Store) :
    let r := (Matcher.run limits subject pattern).run st
    (matchPattern subject pattern limits).run st =
      (if r.1.1 then some r.1.2.bindings else none, r.2) :=
  rfl

/-- What is inferred for a covariant pattern makes the subject assignable to the pattern, unless the
substitution or the second match hits a limit. -/
theorem matchPattern_sound {st : Store} (hst : st.Grown) {s p : TypeId} (hs : s < st.size)
    (hfree : st.InferFree s) (hsettled : st.Settled s) (hp : p < st.size) (hcov : st.Covariant p)
    (limits : Limits) {b : Bindings} {st' : Store}
    (hmatch : (matchPattern s p limits).run st = (some b, st')) :
    let r := ((Substitution.apply p).run (.ofBindings b)).run st'
    r.1.2.guard.overrun = false →
      ((Matcher.run .matching s r.1.1).run r.2).1.2.guard.overrun = false →
      ((isAssignable s r.1.1).run r.2).1 = true := by
  intro r hsubst hagain
  have hw := hst.wellFormed
  have hsubject : st.Concrete s := ⟨hs, hfree, hsettled⟩
  obtain ⟨hlater, hbindings, hfits⟩ := Matcher.run_fits hw hsubject hp hcov limits
  rw [run_matchPattern, Prod.mk.injEq] at hmatch
  obtain ⟨hmatch, rfl⟩ := hmatch
  split at hmatch
  · rename_i hyes
    cases hmatch
    obtain ⟨hp', hcov'⟩ := Store.inherited_covariant.later hw hlater.grown ⟨hp, hcov⟩
    obtain ⟨hlater', hinstance⟩ :=
      Substitution.apply_instance (hlater.sound hw) hp' hcov' hbindings
    have hinstance := hinstance hsubst
    have hw' := hlater'.sound (hlater.sound hw)
    have hsubject' : r.2.Concrete s :=
      kind_concrete.later hw (hlater.grown.trans hlater'.grown) hsubject
    have hassignable := hfits hyes r.2 hlater'.grown hw' _ hinstance
    have hfound := Matcher.run_complete hw' hsubject' hinstance.concrete hassignable .matching
    have hfound := hfound.resolve_right fun h => Bool.false_ne_true (hagain.symm.trans h)
    show (((matchPattern s r.1.1).run r.2).1).isSome = true
    rw [run_matchPattern, if_pos hfound]
    rfl
  · cases hmatch

/-- The subject `T = { pair: [string, number]; next: T }` at place 12, and the pattern
`{ pair: (infer E)[]; next: infer N; extra?: infer X }` at place 18. -/
def chained : Store := Construction.afterAll .initial
  [.reserve, .tuple [{ type := .string }, { type := .number }],
    .defineObject 12 { fields := [{ name := "pair", type := 13 }, { name := "next", type := 12 }] },
    .infer "E", .array 14, .infer "N", .infer "X",
    .object { fields := [{ name := "pair", type := 15 }, { name := "next", type := 16 },
      { name := "extra", type := 17, optional := true }] }]

theorem matchPattern_sound_chained :
    let m := (matchPattern 12 18).run chained
    let r := ((Substitution.apply 18).run (.ofBindings (m.1.getD .empty))).run m.2
    m.1.isSome = true ∧ ((isAssignable 12 r.1.1).run r.2).1 = true := by
  have hst : chained.Grown := Store.Grown.initial.builtAll (by decide)
  have hw := hst.wellFormed
  have hfree : chained.InferFree 12 :=
    (Store.containsInfer_eq_false hw.founded).mp (by decide +kernel)
  have hsettled : chained.Settled 12 := fun u hu => by
    have hall : ∀ u ∈ [TypeId.string, .number, 12, 13],
        chained.cells[u]? ≠ some (.reserved none) := by
      decide
    exact hall u (hu.inside (by decide) (by decide))
  have hcov : chained.Covariant 18 := fun u hu => by
    have hall : ∀ u ∈ [14, 15, 16, 17, 18], chained.isReserved u = false ∧
        (chained.form? u).all Form.isCovariant = true := by decide
    obtain ⟨hr, hf⟩ := hall u (hu.inside (by decide) (by decide))
    exact ⟨hr, fun f h => by simpa [h] using hf⟩
  have hsome : ((matchPattern 12 18).run chained).1.isSome = true := by decide +kernel
  have hmatch : ((matchPattern 12 18).run chained).1 =
      some (((matchPattern 12 18).run chained).1.getD .empty) := by
    obtain ⟨b, hb⟩ := Option.isSome_iff_exists.mp hsome
    rw [hb]
    rfl
  exact ⟨hsome, matchPattern_sound hst (by decide) hfree hsettled (by decide) hcov .matching
    (Prod.ext hmatch rfl) (by decide +kernel) (by decide +kernel)⟩

end TypeCalculus
